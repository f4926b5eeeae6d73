import DashForge.Data.EditScript

/-!
# The three-way merge of a file

One file's merge from the edit scripts of its two sides (`lib/merge/merge3.ts`): `doMerge` walks the scripts
together and makes regions, which touching ones join, and the bytes are ours with each region from the side that
changed it. The diff is a parameter: what is shown holds of any two valid edit scripts (`IsScript`).
-/

namespace DashForge.Merge

/-! ### Records -/

def splitFrom (record : List UInt8) : List UInt8 → List (List UInt8)
  | [] => if record = [] then [] else [record]
  | b :: bytes =>
    if b = 0x0a then (record ++ [b]) :: splitFrom [] bytes
    else splitFrom (record ++ [b]) bytes

/-- Lines with their newlines, the last one perhaps without. -/
def splitRecords (bytes : List UInt8) : List (List UInt8) := splitFrom [] bytes

/-- A record as a string of one character a byte. -/
def recordKey (record : List UInt8) : String := String.ofList (record.map fun b => Char.ofNat b.toNat)

/-! ### Edit scripts -/

/-- `chg1` records at `i1` of the base became `chg2` at `i2` of the side. -/
structure XdChange where
  i1 : ℕ
  i2 : ℕ
  chg1 : ℕ
  chg2 : ℕ
deriving DecidableEq, Repr

section Script

variable {α β : Type*}

/-- What a change puts in the place of what. -/
def XdChange.hunk (file : List α) (x : XdChange) : Hunk α :=
  ⟨x.i1, x.chg1, between file x.i2 (x.i2 + x.chg2)⟩

/-- A script from the base at `p` to the side at `q`: the changes are in order, none is empty, a record is between two
of them, and records that no change has are equal. The first change is `gap` records off at least. -/
def IsScript (base file : List α) : ℕ → ℕ → ℕ → List XdChange → Prop
  | _, p, q, [] => p ≤ base.length ∧ q ≤ file.length ∧ base.drop p = file.drop q
  | gap, p, q, x :: xs => p + gap ≤ x.i1 ∧ x.i2 = q + (x.i1 - p) ∧ between base p x.i1 = between file q x.i2 ∧
      0 < x.chg1 + x.chg2 ∧ x.i1 + x.chg1 ≤ base.length ∧ x.i2 + x.chg2 ≤ file.length ∧
      IsScript base file 1 (x.i1 + x.chg1) (x.i2 + x.chg2) xs

instance instDecidableIsScript [DecidableEq α] (base file : List α) : (gap p q : ℕ) → (xs : List XdChange) →
    Decidable (IsScript base file gap p q xs)
  | _, p, q, [] => inferInstanceAs (Decidable (p ≤ base.length ∧ q ≤ file.length ∧ base.drop p = file.drop q))
  | gap, p, q, x :: xs =>
    have := instDecidableIsScript base file 1 (x.i1 + x.chg1) (x.i2 + x.chg2) xs
    inferInstanceAs (Decidable (p + gap ≤ x.i1 ∧ x.i2 = q + (x.i1 - p) ∧ between base p x.i1 = between file q x.i2 ∧
      0 < x.chg1 + x.chg2 ∧ x.i1 + x.chg1 ≤ base.length ∧ x.i2 + x.chg2 ≤ file.length ∧
      IsScript base file 1 (x.i1 + x.chg1) (x.i2 + x.chg2) xs))

end Script

/-! ### Regions -/

/-- Whose records a region takes. -/
inductive Mode where
  | conflict
  | ours
  | theirs
deriving DecidableEq, Repr

/-- A region: its records in the base, in ours and in theirs. -/
structure XdMerge where
  mode : Mode
  i0 : ℤ
  chg0 : ℤ
  i1 : ℤ
  chg1 : ℤ
  i2 : ℤ
  chg2 : ℤ
deriving DecidableEq, Repr

/-- A region joins the previous one when they touch. -/
def appendMerge (list : List XdMerge) (new : XdMerge) : List XdMerge :=
  match list.getLast? with
  | none => list ++ [new]
  | some m =>
    if new.i1 ≤ m.i1 + m.chg1 ∨ new.i2 ≤ m.i2 + m.chg2 then
      list.dropLast ++ [{ m with
        mode := if new.mode ≠ m.mode then .conflict else m.mode
        chg0 := new.i0 + new.chg0 - m.i0
        chg1 := new.i1 + new.chg1 - m.i1
        chg2 := new.i2 + new.chg2 - m.i2 }]
    else list ++ [new]

section Walk

variable {κ : Type*} [DecidableEq κ]

def sameLines (ours theirs : List κ) (i1 i2 count : ℕ) : Bool :=
  (List.range count).all fun k => ours[i1 + k]? = theirs[i2 + k]?

/-- A change of ours before the next change of theirs. -/
def oursRegion (x1 x2 : XdChange) : XdMerge :=
  ⟨.ours, x1.i1, x1.chg1, x1.i2, x1.chg2, x2.i2 - x2.i1 + x1.i1, x1.chg1⟩

/-- A change of theirs before the next change of ours. -/
def theirsRegion (x1 x2 : XdChange) : XdMerge :=
  ⟨.theirs, x2.i1, x2.chg1, x1.i2 - x1.i1 + x2.i1, x2.chg1, x2.i2, x2.chg2⟩

/-- Changes of both that touch or overlap, over the base records of either. -/
def conflictRegion (x1 x2 : XdChange) : XdMerge :=
  let off : ℤ := x1.i1 - x2.i1
  let ffo : ℤ := off + x1.chg1 - x2.chg1
  let i0 : ℤ := if 0 < off then x1.i1 - off else x1.i1
  let i1 : ℤ := if 0 < off then x1.i2 - off else x1.i2
  let i2 : ℤ := if 0 < off then x2.i2 else x2.i2 + off
  let chg0 : ℤ := x1.i1 + x1.chg1 - i0
  let chg1 : ℤ := x1.i2 + x1.chg2 - i1
  let chg2 : ℤ := x2.i2 + x2.chg2 - i2
  if ffo < 0 then ⟨.conflict, i0, chg0 - ffo, i1, chg1 - ffo, i2, chg2⟩
  else ⟨.conflict, i0, chg0, i1, chg1, i2, chg2 + ffo⟩

/-- A change of ours after the last one of theirs. -/
def oursLast (theirs : List κ) (n0b : ℕ) (x1 : XdChange) : XdMerge :=
  ⟨.ours, x1.i1, x1.chg1, x1.i2, x1.chg2, x1.i1 + theirs.length - n0b, x1.chg1⟩

/-- A change of theirs after the last one of ours. -/
def theirsLast (ours : List κ) (n0a : ℕ) (x2 : XdChange) : XdMerge :=
  ⟨.theirs, x2.i1, x2.chg1, x2.i1 + ours.length - n0a, x2.chg1, x2.i2, x2.chg2⟩

/-- The same change on both sides. -/
def sameChange (ours theirs : List κ) (x1 x2 : XdChange) : Bool :=
  x1.i1 = x2.i1 && x1.chg1 = x2.chg1 && x1.chg2 = x2.chg2 && sameLines ours theirs x1.i2 x2.i2 x1.chg2

/-- The merge regions of two scripts, after those made so far. -/
def doMerge (ours : List κ) (n0a : ℕ) (theirs : List κ) (n0b : ℕ) :
    List XdChange → List XdChange → List XdMerge → List XdMerge
  | [], xscr2, c => xscr2.foldl (fun c x2 => appendMerge c (theirsLast ours n0a x2)) c
  | x1 :: xscr1, [], c => (x1 :: xscr1).foldl (fun c x1 => appendMerge c (oursLast theirs n0b x1)) c
  | x1 :: xscr1, x2 :: xscr2, c =>
    if x1.i1 + x1.chg1 < x2.i1 then
      doMerge ours n0a theirs n0b xscr1 (x2 :: xscr2) (appendMerge c (oursRegion x1 x2))
    else if x2.i1 + x2.chg1 < x1.i1 then
      doMerge ours n0a theirs n0b (x1 :: xscr1) xscr2 (appendMerge c (theirsRegion x1 x2))
    else
      let c := if sameChange ours theirs x1 x2 then c else appendMerge c (conflictRegion x1 x2)
      let e1 := x1.i1 + x1.chg1
      let e2 := x2.i1 + x2.chg1
      if e2 < e1 then doMerge ours n0a theirs n0b (x1 :: xscr1) xscr2 c
      else if e1 < e2 then doMerge ours n0a theirs n0b xscr1 (x2 :: xscr2) c
      else doMerge ours n0a theirs n0b xscr1 xscr2 c
termination_by xscr1 xscr2 => xscr1.length + xscr2.length

end Walk

section Fill

variable {α : Type*}

/-- The records from `i` up to `j`. -/
def records (recs : List α) (i j : ℤ) : List α := between recs i.toNat j.toNat

/-- Ours from `i` on, with each region from the side that changed it. -/
def fill (recs1 recs2 : List α) : ℤ → List XdMerge → List α
  | i, [] => records recs1 i recs1.length
  | i, m :: regions =>
    records recs1 i m.i1 ++
      (if m.mode = .ours then records recs1 m.i1 (m.i1 + m.chg1) else records recs2 m.i2 (m.i2 + m.chg2)) ++
      fill recs1 recs2 (m.i1 + m.chg1) regions

end Fill

/-! ### Files -/

def merge3MaxBytes : ℕ := 2 * 1024 * 1024

def firstFewBytes : ℕ := 8000

def isBinary (bytes : List UInt8) : Bool := (bytes.take firstFewBytes).contains 0

inductive Merge3Result where
  | clean (bytes : List UInt8)
  | conflict
  | refused (reason : String)
deriving DecidableEq, Repr

/-- Merge ours and theirs, by the scripts of a diff of record keys. -/
def merge3 (diffChanges : List String → List String → Except String (List XdChange)) (base ours theirs : List UInt8) :
    Merge3Result :=
  if merge3MaxBytes < base.length ∨ merge3MaxBytes < ours.length ∨ merge3MaxBytes < theirs.length then
    .refused "a file over 2 MiB"
  else if isBinary base || isBinary ours || isBinary theirs then .conflict
  else
    let recs1 := splitRecords ours
    let recs2 := splitRecords theirs
    let k0 := (splitRecords base).map recordKey
    let k1 := recs1.map recordKey
    let k2 := recs2.map recordKey
    match diffChanges k0 k1, diffChanges k0 k2 with
    | .error e, _ => .refused e
    | .ok _, .error e => .refused e
    | .ok xscr1, .ok xscr2 =>
      if xscr1 = [] then .clean theirs
      else if xscr2 = [] then .clean ours
      else
        let regions := doMerge k1 k0.length k2 k0.length xscr1 xscr2 []
        if regions.any fun m => m.mode = .conflict then .conflict
        else .clean (fill recs1 recs2 0 regions).flatten

end DashForge.Merge
