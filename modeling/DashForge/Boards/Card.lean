import DashForge.Boards.Spec
import Mathlib.Data.Prod.Lex
import Mathlib.Data.String.Basic

/-!
# Items and cards

What a board reads of an issue or a pull request, the `card` documents members place them with, and
a card's field values (`rules/boards.rs`). Of all the members' cards for an item the newest counts,
by `$updatedAt` and then `$id`: `newestCards`.

With distinct card ids the newest card of an item does not depend on the order the cards were read
in (`newestCards_eq_of_perm`).
-/

namespace DashForge

open List

/-! ### Field values -/

/-- A card's field values by field id, ascending. -/
abbrev FieldValues := List (ℕ × Scalar)

/-- Set a field's value. -/
def FieldValues.insert (id : ℕ) (value : Scalar) : FieldValues → FieldValues
  | [] => [(id, value)]
  | (k, w) :: rest =>
    if id < k then (id, value) :: (k, w) :: rest
    else if id = k then (id, value) :: rest
    else (k, w) :: FieldValues.insert id value rest

def iterIndexMax : ℤ := 65535
def textValueMax : ℕ := 200
def numAbsMax : ℚ := 10 ^ 15

/-- The `f64` nearest to 1e-6. -/
def numAbsMin : ℚ := 4722366482869645 / 2 ^ 72

/-- `v` as a value of `field`, if it is a valid one. -/
def fieldValue (field : BoardField) (v : Value) : Option Scalar :=
  match field.kind with
  | .sel => do
    let id ← intIn (some v) 1 255
    if (field.options.getD []).any fun o => (o.id : ℤ) = id then some (.ofInt id) else none
  | .num => do
    let x ← v.asF64
    if |x| ≤ numAbsMax ∧ (x = 0 ∨ numAbsMin ≤ |x|) then some (.num x) else none
  | .date => (v.asStr.filter fun s => (dateDays s).isSome).map .text
  | .iter => (intIn (some v) 0 iterIndexMax).map .ofInt
  | .text => (v.asStr.filter fun s => s ≠ "" && decide (charLen s ≤ textValueMax)).map .text

/-- The field a key of a card's values names. -/
def fieldOfValueKey (spec : BoardSpec) (key : String) : Option BoardField :=
  let cs := key.toList
  if !cs.isEmpty && decide (cs.length ≤ 3) && !decide (['0'] <+: cs) && cs.all Char.isDigit then
    (parseU8 cs).bind spec.field
  else none

/-- The entries that name a field of the spec with a value of its type. -/
def validValues (entries : Members) (spec : BoardSpec) : FieldValues :=
  entries.foldl (fun out e =>
    match fieldOfValueKey spec e.1 with
    | none => out
    | some field =>
      match fieldValue field e.2 with
      | none => out
      | some value => FieldValues.insert field.id value out) []

/-- A card's field values; not JSON or not an object reads as none. -/
def parseFieldValues (env : BoardEnv) (json : Option String) (spec : BoardSpec) : FieldValues :=
  match json.filter (· ≠ "") with
  | none => []
  | some json =>
    match env.fromStr json with
    | some (.obj o) => validValues o spec
    | _ => []

/-! ### Items, cards and placements -/

/-- An issue or a pull request. -/
inductive ItemKind where
  | issue
  | pr
deriving DecidableEq, Repr

/-- An item's state. -/
inductive ItemState where
  | isOpen
  /-- Closed, not merged. -/
  | closed
  | merged
deriving DecidableEq, Repr

/-- What a board reads of an issue or a pull request. -/
structure BoardItem where
  id : String
  number : ℕ
  repoId : String
  kind : ItemKind
  state : ItemState
  createdAt : ℤ
  /-- The time of its latest transition into closed or merged. -/
  closedAt : Option ℤ
  title : String
  labels : List String
  assignees : List String
  milestone : Option String
  author : String
deriving DecidableEq, Repr

def cardArchived : ℤ := 1
def cardRemoved : ℤ := 2

/-- A `card` document as read; `col`, `rank` and `f` are absent when unreadable. -/
structure CardDoc where
  id : String
  updatedAt : ℤ
  /-- The item's `$id`. -/
  item : String
  col : Option ℤ
  rank : Option String
  /-- The field values' JSON. -/
  f : Option String
  state : ℤ
deriving DecidableEq, Repr

/-- Why an item is archived. -/
inductive ArchivedBy where
  /-- Its newest card says so. -/
  | card
  /-- Auto-archive. -/
  | auto
deriving DecidableEq, Repr

/-- Where one item shows; column 0 is "No status". -/
structure Placement where
  id : String
  /-- A source matches it or it has a card, and that card is not removed. -/
  on : Bool
  sourced : Bool
  removed : Bool
  /-- The newest card's `$id`. -/
  card : Option String
  col : ℕ
  rank : String
  archived : Option ArchivedBy
  fields : FieldValues
deriving DecidableEq, Repr

/-! ### The newest card of an item -/

/-- Whether `(aAt, aId)` is newer than `(bAt, bId)`. -/
def newer (aAt : ℤ) (aId : String) (bAt : ℤ) (bId : String) : Bool :=
  decide (toLex (aAt, aId) > toLex (bAt, bId))

/-- One card read after `out`. -/
def newestStep (out : String → Option CardDoc) (c : CardDoc) : String → Option CardDoc :=
  if (out c.item).any fun prev => !newer c.updatedAt c.id prev.updatedAt prev.id then out
  else Function.update out c.item (some c)

/-- Every item's newest card over every member's. -/
def newestCards (cards : List CardDoc) : String → Option CardDoc :=
  cards.foldl newestStep fun _ => none

/-- What cards of one item are ordered by. -/
def CardDoc.key (c : CardDoc) : ℤ ×ₗ String := toLex (c.updatedAt, c.id)

/-- `c` is a card of `item` in `cards` and none of them is newer. -/
structure IsNewest (cards : List CardDoc) (item : String) (c : CardDoc) : Prop where
  mem : c ∈ cards
  item_eq : c.item = item
  le : ∀ d ∈ cards, d.item = item → d.key ≤ c.key

/-- What is known of an item after reading `cards`. -/
def NewestInv (cards : List CardDoc) (item : String) : Option CardDoc → Prop
  | none => ∀ d ∈ cards, d.item ≠ item
  | some c => IsNewest cards item c

variable {cards : List CardDoc} {item : String} {c : CardDoc}

theorem newestInv_concat_of_ne (hne : c.item ≠ item) {best : Option CardDoc} (h : NewestInv cards item best) :
    NewestInv (cards ++ [c]) item best := by
  cases best with
  | none =>
    intro d hd
    rcases mem_append.mp hd with hd | hd
    · exact h d hd
    · exact (mem_singleton.mp hd) ▸ hne
  | some b =>
    refine ⟨mem_append_left _ h.mem, h.item_eq, fun d hd hitem => ?_⟩
    rcases mem_append.mp hd with hd | hd
    · exact h.le d hd hitem
    · exact absurd ((mem_singleton.mp hd) ▸ hitem) hne

theorem newestInv_concat_self {b : CardDoc} (h : IsNewest cards c.item b) (hle : c.key ≤ b.key) :
    IsNewest (cards ++ [c]) c.item b := by
  refine ⟨mem_append_left _ h.mem, h.item_eq, fun d hd hitem => ?_⟩
  rcases mem_append.mp hd with hd | hd
  · exact h.le d hd hitem
  · exact (mem_singleton.mp hd) ▸ hle

theorem isNewest_concat (h : ∀ d ∈ cards, d.item = c.item → d.key ≤ c.key) : IsNewest (cards ++ [c]) c.item c := by
  refine ⟨by simp, rfl, fun d hd hitem => ?_⟩
  rcases mem_append.mp hd with hd | hd
  · exact h d hd hitem
  · exact (mem_singleton.mp hd) ▸ le_rfl

theorem newestInv_step {out : String → Option CardDoc}
    (h : ∀ item, NewestInv cards item (out item)) (c : CardDoc) (item : String) :
    NewestInv (cards ++ [c]) item (newestStep out c item) := by
  rcases eq_or_ne c.item item with rfl | hne
  · unfold newestStep
    have hself := h c.item
    cases hout : out c.item with
    | none =>
      rw [hout] at hself
      simp only [Option.any_none, Bool.false_eq_true, ↓reduceIte, Function.update_self]
      exact isNewest_concat fun d hd hitem => absurd hitem (hself d hd)
    | some b =>
      rw [hout] at hself
      -- `newer` is the strict order of the keys, so a tie keeps the card read first
      have hnewer : newer c.updatedAt c.id b.updatedAt b.id = true ↔ b.key < c.key := by
        simp [newer, CardDoc.key]
      by_cases hlt : b.key < c.key
      · simp only [Option.any_some, hnewer.mpr hlt, Bool.not_true, Bool.false_eq_true, ↓reduceIte, Function.update_self]
        exact isNewest_concat fun d hd hitem => (hself.le d hd hitem).trans hlt.le
      · simp only [Option.any_some, mt hnewer.mp hlt, Bool.not_false, ↓reduceIte, hout]
        exact newestInv_concat_self hself (not_lt.mp hlt)
  · have hkeep : newestStep out c item = out item := by
      unfold newestStep
      split
      · rfl
      · exact Function.update_of_ne hne.symm _ _
    rw [hkeep]
    exact newestInv_concat_of_ne hne (h item)

theorem newestInv_newestCards (cards : List CardDoc) (item : String) :
    NewestInv cards item (newestCards cards item) := by
  induction cards using List.reverseRecOn generalizing item with
  | nil => simp [newestCards, NewestInv]
  | append_singleton cards c ih =>
    rw [newestCards, foldl_append]
    exact newestInv_step ih c item

theorem IsNewest.unique (hnodup : (cards.map CardDoc.id).Nodup) {d : CardDoc}
    (hc : IsNewest cards item c) (hd : IsNewest cards item d) :
    c = d := by
  have hkey : c.key = d.key := le_antisymm (hd.le c hc.mem hc.item_eq) (hc.le d hd.mem hd.item_eq)
  have hid : c.id = d.id := congrArg (fun k => (ofLex k).2) hkey
  exact inj_on_of_nodup_map hnodup hc.mem hd.mem hid

theorem IsNewest.of_perm {cards' : List CardDoc} (hp : cards.Perm cards') (h : IsNewest cards item c) :
    IsNewest cards' item c :=
  ⟨hp.mem_iff.mp h.mem, h.item_eq, fun d hd => h.le d (hp.mem_iff.mpr hd)⟩

/-- With distinct card ids the newest cards do not depend on the order of the cards. -/
theorem newestCards_eq_of_perm {cards' : List CardDoc}
    (hnodup : (cards.map CardDoc.id).Nodup) (hp : cards.Perm cards') : newestCards cards = newestCards cards' := by
  funext item
  have h := newestInv_newestCards cards item
  have h' := newestInv_newestCards cards' item
  cases hc : newestCards cards item with
  | none =>
    cases hd : newestCards cards' item with
    | none => rfl
    | some d =>
      rw [hc] at h
      rw [hd] at h'
      exact absurd h'.item_eq (h d (hp.mem_iff.mpr h'.mem))
  | some c =>
    rw [hc] at h
    cases hd : newestCards cards' item with
    | none =>
      rw [hd] at h'
      exact absurd h.item_eq (h' c (hp.mem_iff.mp h.mem))
    | some d =>
      rw [hd] at h'
      exact congrArg some (h.unique hnodup (h'.of_perm hp.symm))

end DashForge
