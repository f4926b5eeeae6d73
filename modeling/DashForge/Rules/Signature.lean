import DashForge.Data.Utf8
import Mathlib.Data.List.Flatten

/-!
# The signature in a commit

A signed commit carries its signature in a header, `gpgsig` or `gpgsig-sha256` by the repository's hash, and the
signature is over the commit without its signature headers (`rules/signature.rs`). `splitSignedCommit` takes the
two apart line by line, with one flag for the repository's own signature and one for the other hash's.

A header is a line with its continuation lines, those that start with a space (`Header`, `headersOf`).
`scan_header` says what the scan does with one, whatever came before it, and `scan_headers` with all of them up to
the blank line; so the payload is the commit without the headers named for a signature, and the signature the
values of the repository's own (`splitSignedCommit_eq`).
-/

namespace DashForge

open List

namespace Signature

def gpgsig : List UInt8 := [0x67, 0x70, 0x67, 0x73, 0x69, 0x67]

def gpgsigSha256 : List UInt8 := gpgsig ++ [0x2d, 0x73, 0x68, 0x61, 0x32, 0x35, 0x36]

/-- The header that holds the signature, by the repository's hash. -/
def headerName (sha256Repo : Bool) : List UInt8 := if sha256Repo then gpgsigSha256 else gpgsig

/-- The lines of some bytes, each with the newline that ends it. -/
def rawLines : List UInt8 → List (List UInt8)
  | [] => []
  | b :: bs =>
    if b = 0x0a then [b] :: rawLines bs
    else
      match rawLines bs with
      | [] => [[b]]
      | l :: ls => (b :: l) :: ls

/-- What the scan has gathered, and its flags. -/
@[ext]
structure Scan where
  payload : List UInt8
  signature : List UInt8
  inSignature : Bool
  otherSignature : Bool
  saw : Bool
deriving DecidableEq

/-- The part of a line that belongs to the signature, if any does, and whether the other hash's signature goes on. -/
def lineOf (header : List UInt8) (s : Scan) (l : List UInt8) : Option (List UInt8) × Bool :=
  if s.inSignature && l.head? == some 0x20 then (some (l.drop 1), s.otherSignature)
  else if header.isPrefixOf l && l[header.length]? == some 0x20 then (some (l.drop (header.length + 1)), false)
  else if gpgsig.isPrefixOf l then (none, true)
  else (none, s.otherSignature && l.head? == some 0x20)

/-- The scan of the lines that are left. -/
def scan (header : List UInt8) (s : Scan) : List (List UInt8) → Scan
  | [] => s
  | line :: rest =>
    match lineOf header s line with
    | (some value, other) =>
      scan header { s with signature := s.signature ++ value, saw := true, inSignature := true, otherSignature := other }
        rest
    | (none, other) =>
      -- The blank line ends the header: the message is copied whole.
      let blank := line.head? == some 0x0a
      let taken := if blank then (line :: rest).flatten else line
      let s := { s with payload := if other then s.payload else s.payload ++ taken, inSignature := false, otherSignature := other }
      if blank then s else scan header s rest

end Signature

open Signature

/-- A commit's signature and the bytes it signs; `none` for an unsigned commit. -/
def splitSignedCommit (bytes : List UInt8) (sha256Repo : Bool) : Option (List UInt8 × String) :=
  let s := scan (headerName sha256Repo) ⟨[], [], false, false, false⟩ (rawLines bytes)
  if s.saw then some (s.payload, fromUtf8Lossy s.signature) else none

namespace Signature

/-! ### Headers -/

/-- The line goes on with the header before it. -/
def continues (line : List UInt8) : Bool := line.head? == some 0x20

/-- The line is blank. -/
def blank (line : List UInt8) : Bool := line.head? == some 0x0a

/-- A header: its first line and its continuation lines. -/
structure Header where
  first : List UInt8
  more : List (List UInt8)

def Header.lines (h : Header) : List (List UInt8) := h.first :: h.more

def Header.bytes (h : Header) : List UInt8 := h.lines.flatten

/-- A signature header of either hash. -/
def Header.isSignature (h : Header) : Bool := gpgsig.isPrefixOf h.first

/-- The header of a name. -/
def Header.isNamed (name : List UInt8) (h : Header) : Bool := (name ++ [0x20]).isPrefixOf h.first

/-- The value of a header of a name, without the space before each line. -/
def Header.value (name : List UInt8) (h : Header) : List UInt8 :=
  h.first.drop (name.length + 1) ++ (h.more.map (List.drop 1)).flatten

/-- A line before the headers of the lines after it. -/
def addLine (line : List UInt8) : List Header → List Header
  | [] => [⟨line, []⟩]
  | h :: hs => if continues h.first then ⟨line, h.first :: h.more⟩ :: hs else ⟨line, []⟩ :: h :: hs

/-- The headers that lines make up. -/
def headersOf (lines : List (List UInt8)) : List Header := lines.foldr addLine []

variable {line l : List UInt8} {h : Header} {lines' : List (List UInt8)}

theorem addLine_append {hs ks : List Header}
    (hk : hs = [] → ∀ k ∈ ks.head?, continues k.first = false) : addLine line (hs ++ ks) = addLine line hs ++ ks := by
  cases hs with
  | nil =>
    cases ks with
    | nil => rfl
    | cons k ks => simp [addLine, hk rfl k rfl]
  | cons h hs =>
    simp only [addLine, cons_append]
    split_ifs <;> rfl

variable {lines : List (List UInt8)}

theorem first_headersOf : (headersOf lines).head?.map Header.first = lines.head? := by
  cases lines with
  | nil => rfl
  | cons line lines =>
    rw [headersOf, foldr_cons]
    cases lines.foldr addLine [] with
    | nil => rfl
    | cons h hs =>
      simp only [addLine]
      split_ifs <;> rfl

theorem headersOf_append (pre : List (List UInt8)) {post : List (List UInt8)}
    (hpost : ∀ l ∈ post.head?, continues l = false) : headersOf (pre ++ post) = headersOf pre ++ headersOf post := by
  induction pre with
  | nil => rfl
  | cons line pre ih =>
    have hfirst : ∀ k ∈ (headersOf post).head?, continues k.first = false := fun k hk =>
      hpost k.first (by rw [← first_headersOf, Option.mem_def.mp hk]; rfl)
    rw [cons_append, headersOf, foldr_cons]
    change addLine line (headersOf (pre ++ post)) = _
    rw [ih, addLine_append fun _ => hfirst]
    rfl

/-- The headers are the lines they are made of. -/
theorem flatMap_lines_headersOf (lines : List (List UInt8)) : (headersOf lines).flatMap Header.lines = lines := by
  induction lines with
  | nil => rfl
  | cons line lines ih =>
    change (addLine line (headersOf lines)).flatMap Header.lines = _
    cases hhs : headersOf lines with
    | nil =>
      rw [hhs] at ih
      simpa [addLine, Header.lines] using ih
    | cons h hs =>
      rw [hhs] at ih
      simp only [addLine]
      split_ifs <;> simpa [Header.lines] using ih

theorem headersOf_continues (lines : List (List UInt8)) : (∀ h ∈ headersOf lines, ∀ l ∈ h.more, continues l = true) ∧
      ∀ h ∈ (headersOf lines).tail, continues h.first = false := by
  induction lines with
  | nil => simp [headersOf]
  | cons line lines ih =>
    change (∀ h ∈ addLine line (headersOf lines), _) ∧ ∀ h ∈ (addLine line (headersOf lines)).tail, _
    cases hhs : headersOf lines with
    | nil => simp [addLine]
    | cons h hs =>
      rw [hhs] at ih
      obtain ⟨hmore, hfirst⟩ := ih
      simp only [forall_mem_cons, tail_cons] at hmore hfirst
      simp only [addLine]
      split_ifs with hcont
      · exact ⟨by simpa [hcont] using hmore, hfirst⟩
      · exact ⟨by simpa using hmore, by simpa [hcont] using hfirst⟩

/-! ### The scan of one header -/

section Scan

variable {r : Bool} {s : Scan}

/-- The scan of a line that is not blank. -/
def Scan.step (name : List UInt8) (s : Scan) (line : List UInt8) : Scan :=
  match lineOf name s line with
  | (some value, other) =>
    { s with signature := s.signature ++ value, saw := true, inSignature := true, otherSignature := other }
  | (none, other) =>
    { s with payload := if other then s.payload else s.payload ++ line, inSignature := false, otherSignature := other }

/-- The repository's own signature does not go on within the other hash's, and was seen. -/
def Scan.Tidy (s : Scan) : Prop := s.inSignature = true → s.otherSignature = false ∧ s.saw = true

/-- What the scan makes of a header. -/
def Scan.addHeader (name : List UInt8) (s : Scan) (h : Header) : Scan :=
  if h.isNamed name then
    { s with signature := s.signature ++ h.value name, saw := true, inSignature := true, otherSignature := false }
  else if h.isSignature then { s with inSignature := false, otherSignature := true }
  else { s with payload := s.payload ++ h.bytes, inSignature := false, otherSignature := false }

theorem scan_append {name : List UInt8} (hlines : ∀ l ∈ lines, blank l = false)
    (rest : List (List UInt8)) : scan name s (lines ++ rest) = scan name (lines.foldl (Scan.step name) s) rest := by
  induction lines generalizing s with
  | nil => rfl
  | cons line lines ih =>
    obtain ⟨hline, hlines⟩ := forall_mem_cons.mp hlines
    rw [foldl_cons, ← ih hlines, cons_append, scan, Scan.step]
    rw [blank] at hline
    split <;> simp [hline]

theorem headerName_eq (r : Bool) : ∃ more, headerName r = gpgsig ++ more := by
  cases r with
  | false => exact ⟨[], rfl⟩
  | true => exact ⟨_, rfl⟩

theorem isPrefixOf_of_head? (line : List UInt8) (h : line.head? ≠ some 0x67) :
    gpgsig.isPrefixOf line = false ∧ (headerName r).isPrefixOf line = false := by
  obtain ⟨more, hname⟩ := headerName_eq r
  rw [hname]
  cases line with
  | nil => exact ⟨rfl, rfl⟩
  | cons b line =>
    have hb : ((0x67 : UInt8) == b) = false := beq_eq_false_iff_ne.mpr fun heq => h (by rw [← heq]; rfl)
    simp [gpgsig, List.isPrefixOf, hb]

theorem lineOf_of_continues {line : List UInt8} (h : continues line = true) : lineOf (headerName r) s line =
      if s.inSignature then (some (line.drop 1), s.otherSignature) else (none, s.otherSignature) := by
  have hhead : line.head? = some 0x20 := by simpa [continues] using h
  obtain ⟨hsig, hname⟩ := isPrefixOf_of_head? (r := r) line (by simp [hhead])
  simp [lineOf, hhead, hsig, hname]

theorem foldl_step_more (hs : s.Tidy) {more : List (List UInt8)} (hmore : ∀ l ∈ more, continues l = true) :
    more.foldl (Scan.step (headerName r)) s =
      if s.inSignature then { s with signature := s.signature ++ (more.map (List.drop 1)).flatten }
      else if s.otherSignature then s
      else { s with payload := s.payload ++ more.flatten } := by
  induction more generalizing s with
  | nil => split_ifs <;> simp
  | cons line more ih =>
    obtain ⟨hline, hmore⟩ := forall_mem_cons.mp hmore
    rw [foldl_cons, Scan.step, lineOf_of_continues hline]
    by_cases hin : s.inSignature = true
    · obtain ⟨hother, hsaw⟩ := hs hin
      simp only [hin, if_true]
      rw [ih ?_ hmore]
      · simp [hsaw]
      · exact fun _ => ⟨hother, rfl⟩
    · have hin' : s.inSignature = false := by simpa using hin
      simp only [hin', Bool.false_eq_true, if_false]
      rw [ih ?_ hmore]
      · by_cases hother : s.otherSignature = true <;> simp [Scan.ext_iff, hin', hother]
      · simp [Scan.Tidy]

variable {h : Header}

theorem isNamed_iff (name : List UInt8) :
    h.isNamed name = true ↔ name.isPrefixOf h.first = true ∧ h.first[name.length]? = some 0x20 := by
  rw [Header.isNamed, List.isPrefixOf_iff_prefix, List.isPrefixOf_iff_prefix]
  constructor
  · rintro ⟨rest, hrest⟩
    rw [← hrest]
    exact ⟨⟨0x20 :: rest, by simp⟩, by simp⟩
  · rintro ⟨⟨rest, hrest⟩, hblank⟩
    rw [← hrest, getElem?_append_right le_rfl, Nat.sub_self] at hblank
    obtain ⟨rest, rfl⟩ : ∃ rest', rest = 0x20 :: rest' := by
      cases rest with
      | nil => simp at hblank
      | cons b rest => exact ⟨rest, by simpa using hblank⟩
    exact ⟨rest, by simpa using hrest⟩

theorem isSignature_of_isNamed (hnamed : h.isNamed (headerName r) = true) : h.isSignature = true := by
  obtain ⟨more, hname⟩ := headerName_eq r
  rw [Header.isNamed, hname, List.isPrefixOf_iff_prefix, append_assoc] at hnamed
  rw [Header.isSignature, List.isPrefixOf_iff_prefix]
  exact (prefix_append _ _).trans hnamed

variable (hfirst : s.inSignature = true ∨ s.otherSignature = true → continues h.first = false)

include hfirst in
theorem step_first :
    s.step (headerName r) h.first = s.addHeader (headerName r) ⟨h.first, []⟩ := by
  have hin : (s.inSignature && h.first.head? == some 0x20) = false := by
    by_cases hs : s.inSignature = true
    · rw [Bool.and_eq_false_iff]
      exact .inr (hfirst (.inl hs))
    · simp [hs]
  have hother : (s.otherSignature && h.first.head? == some 0x20) = false := by
    by_cases hs : s.otherSignature = true
    · rw [Bool.and_eq_false_iff]
      exact .inr (hfirst (.inr hs))
    · simp [hs]
  have hnamed := isNamed_iff (headerName r) (h := ⟨h.first, []⟩)
  simp only [Scan.step, Scan.addHeader, lineOf, hin, Bool.false_eq_true, if_false, hother, hnamed, Bool.and_eq_true,
    beq_iff_eq, Header.isSignature, Header.value, Header.bytes, Header.lines]
  by_cases hname : (headerName r).isPrefixOf h.first = true ∧ h.first[(headerName r).length]? = some 0x20
  · simp [hname]
  · simp only [hname, if_false, flatten_cons, flatten_nil, append_nil]
    by_cases hsig : gpgsig.isPrefixOf h.first = true <;> simp only [hsig, if_true, if_false, Bool.false_eq_true]

include hfirst in
theorem foldl_step_lines (hmore : ∀ l ∈ h.more, continues l = true) :
    h.lines.foldl (Scan.step (headerName r)) s = s.addHeader (headerName r) h := by
  have htidy : (s.addHeader (headerName r) ⟨h.first, []⟩).Tidy := by
    simp only [Scan.Tidy, Scan.addHeader]
    split_ifs <;> simp
  rw [Header.lines, foldl_cons, step_first hfirst, foldl_step_more htidy hmore]
  have hnamed : Header.isNamed (headerName r) ⟨h.first, []⟩ = h.isNamed (headerName r) := rfl
  have hsig : Header.isSignature ⟨h.first, []⟩ = h.isSignature := rfl
  simp only [Scan.addHeader, hnamed, hsig, Header.value, Header.bytes, Header.lines]
  by_cases hn : h.isNamed (headerName r) = true
  · simp [hn]
  · by_cases hs : h.isSignature = true <;> simp [hn, hs]

theorem foldl_addHeader (hs : List Header) (s : Scan) : let s' := hs.foldl (Scan.addHeader (headerName r)) s
    s'.payload = s.payload ++ (hs.filter (!·.isSignature)).flatMap Header.bytes ∧
      s'.signature = s.signature ++ (hs.filter (·.isNamed (headerName r))).flatMap
        (Header.value (headerName r)) ∧ s'.saw = (s.saw || hs.any (·.isNamed (headerName r))) := by
  induction hs generalizing s with
  | nil => simp
  | cons h hs ih =>
    obtain ⟨hpayload, hsig, hsaw⟩ := ih (s.addHeader (headerName r) h)
    by_cases hnamed : h.isNamed (headerName r) = true
    · have hsigned := isSignature_of_isNamed hnamed
      refine ⟨hpayload.trans ?_, hsig.trans ?_, hsaw.trans ?_⟩ <;> simp [Scan.addHeader, hnamed, hsigned]
    · refine ⟨hpayload.trans ?_, hsig.trans ?_, hsaw.trans ?_⟩ <;>
        by_cases hsigned : h.isSignature = true <;> simp [Scan.addHeader, hnamed, hsigned]

theorem foldl_step_headers {hs : List Header} (hmore : ∀ h ∈ hs, ∀ l ∈ h.more, continues l = true)
    (htail : ∀ h ∈ hs.tail, continues h.first = false)
    (hhead : ∀ h ∈ hs.head?, s.inSignature = true ∨ s.otherSignature = true → continues h.first = false) :
    (hs.flatMap Header.lines).foldl (Scan.step (headerName r)) s = hs.foldl (Scan.addHeader (headerName r)) s := by
  induction hs generalizing s with
  | nil => rfl
  | cons h hs ih =>
    obtain ⟨hmore, hmores⟩ := forall_mem_cons.mp hmore
    rw [flatMap_cons, foldl_append, foldl_step_lines (hhead h rfl) hmore, foldl_cons]
    exact ih hmores (fun k hk => htail k (mem_of_mem_tail hk)) fun k hk _ => htail k (mem_of_mem_head? hk)

theorem scan_body {body : List (List UInt8)} (hbody : ∀ l ∈ body.head?, blank l = true) :
    let s' := scan (headerName r) s body
    s'.payload = s.payload ++ body.flatten ∧ s'.signature = s.signature ∧ s'.saw = s.saw := by
  cases body with
  | nil => simp [scan]
  | cons line rest =>
    have hhead : line.head? = some 0x0a := by simpa [blank] using hbody line rfl
    obtain ⟨hsig, hname⟩ := isPrefixOf_of_head? (r := r) line (by simp [hhead])
    have hline : lineOf (headerName r) s line = (none, false) := by simp [lineOf, hhead, hsig, hname]
    simp [scan, hline, hhead]

end Scan

/-! ### The whole commit -/

/-- The headers of a commit. -/
def headers (bytes : List UInt8) : List Header := headersOf ((rawLines bytes).takeWhile (!blank ·))

/-- The blank line and the message of a commit. -/
def message (bytes : List UInt8) : List (List UInt8) := (rawLines bytes).dropWhile (!blank ·)

theorem blank_head?_message (bytes : List UInt8) : ∀ l ∈ (message bytes).head?, blank l = true := by
  intro l hl
  have hhead := head?_dropWhile_not (!blank ·) (rawLines bytes)
  rw [message, Option.mem_def] at hl
  rw [hl] at hhead
  simpa using hhead

/-- **The split**: the payload is the commit without its signature headers, and the signature the values of those that
the repository's hash names. -/
theorem splitSignedCommit_eq (bytes : List UInt8) (sha256Repo : Bool) : splitSignedCommit bytes sha256Repo =
      if (headers bytes).any (·.isNamed (headerName sha256Repo)) then
        some (((headers bytes).filter (!·.isSignature)).flatMap Header.bytes ++ (message bytes).flatten,
          fromUtf8Lossy (((headers bytes).filter (·.isNamed (headerName sha256Repo))).flatMap
            (Header.value (headerName sha256Repo)))) else none := by
  obtain ⟨hmore, htail⟩ := headersOf_continues ((rawLines bytes).takeWhile (!blank ·))
  have hlines : ∀ l ∈ (rawLines bytes).takeWhile (!blank ·), blank l = false := fun l hl => by
    simpa using mem_takeWhile_imp hl
  -- the scan passes the lines before the blank one, header by header, and then the message
  have hscan : scan (headerName sha256Repo) ⟨[], [], false, false, false⟩ (rawLines bytes) =
      scan (headerName sha256Repo)
        ((headers bytes).foldl (Scan.addHeader (headerName sha256Repo)) ⟨[], [], false, false, false⟩)
        (message bytes) := by
    conv_lhs => rw [← takeWhile_append_dropWhile (p := (!blank ·)) (l := rawLines bytes)]
    have hsteps := foldl_step_headers (r := sha256Repo) (s := ⟨[], [], false, false, false⟩) hmore htail (by simp)
    rw [flatMap_lines_headersOf] at hsteps
    rw [scan_append hlines, hsteps]
    rfl
  obtain ⟨hpayload, hsig, hsaw⟩ := foldl_addHeader (r := sha256Repo) (headers bytes) ⟨[], [], false, false, false⟩
  obtain ⟨hpayload', hsig', hsaw'⟩ := scan_body (r := sha256Repo) (s := (headers bytes).foldl
    (Scan.addHeader (headerName sha256Repo)) ⟨[], [], false, false, false⟩) (blank_head?_message bytes)
  simp [splitSignedCommit, hscan, hpayload', hsig', hsaw', hpayload, hsig, hsaw]

/-! ### Signing a commit -/

/-- A line with its end. -/
def Complete (line : List UInt8) : Prop := ∃ l, line = l ++ [0x0a] ∧ 0x0a ∉ l

/-- A text of complete lines, as a signature is. -/
def EndsLine (text : String) : Prop := (utf8 text).getLast? = some 0x0a

/-- The lines before a commit's blank line: none is blank or named for a signature, and the first starts a header. -/
structure CommitHeader (lines : List (List UInt8)) : Prop where
  complete : ∀ l ∈ lines, Complete l
  not_blank : ∀ l ∈ lines, blank l = false
  not_gpgsig : ∀ l ∈ lines, gpgsig.isPrefixOf l = false
  first : ∀ l ∈ lines.head?, continues l = false

/-- A commit object. -/
def commitBytes (lines : List (List UInt8)) (message : List UInt8) : List UInt8 := lines.flatten ++ 0x0a :: message

/-- The header of a signature: the name before its first line, a space before each further one. -/
def signatureLines (name : List UInt8) (text : String) : List (List UInt8) :=
  match rawLines (utf8 text) with
  | [] => []
  | l :: ls => (name ++ 0x20 :: l) :: ls.map (0x20 :: ·)

/-- `lines'` is `lines` with `new` after one of its headers, whose continuation lines stay with it. -/
def InsertedLines (new lines lines' : List (List UInt8)) : Prop :=
  ∃ pre post, pre ≠ [] ∧ (∀ l ∈ post.head?, continues l = false) ∧ lines = pre ++ post ∧ lines' = pre ++ new ++ post

theorem rawLines_append (h : Complete line) (rest : List UInt8) : rawLines (line ++ rest) = line :: rawLines rest := by
  obtain ⟨l, rfl, hl⟩ := h
  induction l with
  | nil => simp [rawLines]
  | cons b l ih =>
    rw [mem_cons, not_or] at hl
    have hih : rawLines (l ++ 0x0a :: rest) = (l ++ [0x0a]) :: rawLines rest := by simpa using ih hl.2
    simp [rawLines, hih, Ne.symm hl.1]

theorem rawLines_flatten (h : ∀ l ∈ lines, Complete l) (rest : List UInt8) :
    rawLines (lines.flatten ++ rest) = lines ++ rawLines rest := by
  induction lines with
  | nil => rfl
  | cons line lines ih =>
    obtain ⟨hline, hlines⟩ := forall_mem_cons.mp h
    rw [flatten_cons, append_assoc, rawLines_append hline, ih hlines, cons_append]

theorem flatten_rawLines (bytes : List UInt8) : (rawLines bytes).flatten = bytes := by
  induction bytes with
  | nil => rfl
  | cons b bytes ih =>
    rw [rawLines]
    split_ifs with hb
    · rw [flatten_cons, ih, singleton_append]
    · cases hls : rawLines bytes with
      | nil => simpa [hls] using ih
      | cons l ls => simpa [hls] using ih

theorem complete_of_mem_rawLines {bytes : List UInt8} (h : bytes.getLast? = some 0x0a) :
    ∀ l ∈ rawLines bytes, Complete l := by
  induction bytes with
  | nil => simp [rawLines]
  | cons b bytes ih =>
    cases bytes with
    | nil =>
      obtain rfl : b = 0x0a := by simpa using h
      intro l hl
      obtain rfl : l = [0x0a] := by simpa [rawLines] using hl
      exact ⟨[], rfl, not_mem_nil⟩
    | cons c bytes =>
      have ih' := ih (by simpa using h)
      rw [rawLines]
      split_ifs with hb
      · subst hb
        intro l hl
        rcases mem_cons.mp hl with rfl | hl
        · exact ⟨[], rfl, not_mem_nil⟩
        · exact ih' l hl
      · cases hls : rawLines (c :: bytes) with
        | nil => exact absurd (flatten_rawLines (c :: bytes)) (by simp [hls])
        | cons k ks =>
          rw [hls] at ih'
          obtain ⟨⟨k, rfl, hk⟩, hks⟩ := forall_mem_cons.mp ih'
          refine forall_mem_cons.mpr ⟨⟨b :: k, rfl, ?_⟩, hks⟩
          exact fun hmem => (mem_cons.mp hmem).elim (fun heq => hb heq.symm) hk

theorem Complete.cons (h : Complete l) {b : UInt8} (hb : b ≠ 0x0a) : Complete (b :: l) := by
  obtain ⟨l, rfl, hl⟩ := h
  exact ⟨b :: l, rfl, fun hmem => (mem_cons.mp hmem).elim (fun heq => hb heq.symm) hl⟩

theorem Complete.append {pre : List UInt8} (h : Complete l) (hpre : 0x0a ∉ pre) : Complete (pre ++ l) := by
  obtain ⟨l, rfl, hl⟩ := h
  exact ⟨pre ++ l, by simp, by simp [hpre, hl]⟩

/-- The header of a signature, as a header: its name, its lines and its value. -/
theorem signatureLines_spec (r : Bool) {text : String} (htext : EndsLine text) :
    ∃ h : Header, signatureLines (headerName r) text = h.lines ∧ (∀ l ∈ h.more, continues l = true) ∧
      (∀ l ∈ h.lines, Complete l ∧ blank l = false) ∧ continues h.first = false ∧
      h.isNamed (headerName r) = true ∧ h.isNamed (headerName !r) = false ∧ h.value (headerName r) = utf8 text := by
  cases hls : rawLines (utf8 text) with
  | nil =>
    have hnil := flatten_rawLines (utf8 text)
    rw [hls, flatten_nil] at hnil
    simp [EndsLine, ← hnil] at htext
  | cons l ls =>
    have hcomplete := complete_of_mem_rawLines htext
    have hflat := flatten_rawLines (utf8 text)
    rw [hls] at hcomplete hflat
    obtain ⟨hl, hls'⟩ := forall_mem_cons.mp hcomplete
    have hname : 0x0a ∉ headerName r ++ [0x20] := by cases r <;> decide
    have hfirst : Complete (headerName r ++ 0x20 :: l) := by simpa using hl.append hname
    have hhead : (headerName r ++ 0x20 :: l).head? = some 0x67 := by cases r <;> rfl
    refine ⟨⟨headerName r ++ 0x20 :: l, ls.map (0x20 :: ·)⟩, by simp [signatureLines, hls, Header.lines],
      ?_, ?_, ?_, ?_,
      ?_, ?_⟩
    · simp [continues]
    · intro k hk
      rcases mem_cons.mp hk with rfl | hk
      · exact ⟨hfirst, by simp [blank, hhead]⟩
      · obtain ⟨k, hkls, rfl⟩ := mem_map.mp hk
        exact ⟨(hls' k hkls).cons (by decide), by simp [blank]⟩
    · simp [continues, hhead]
    · simp [Header.isNamed, List.isPrefixOf_iff_prefix]
    · cases r <;> simp [Header.isNamed, headerName, gpgsigSha256, gpgsig, List.isPrefixOf]
    · have hdrop : (headerName r ++ 0x20 :: l).drop ((headerName r).length + 1) = l := by
        rw [append_cons]
        exact drop_left' (by simp)
      simpa [Header.value, hdrop, map_map, Function.comp_def] using hflat

theorem headersOf_lines (hmore : ∀ l ∈ h.more, continues l = true) : headersOf h.lines = [h] := by
  have hall : ∀ more : List (List UInt8), (∀ l ∈ more, continues l = true) → ∀ first,
      headersOf (first :: more) = [⟨first, more⟩] := by
    intro more
    induction more with
    | nil => exact fun _ first => rfl
    | cons l more ih =>
      intro hmore first
      obtain ⟨hl, hmore⟩ := forall_mem_cons.mp hmore
      change addLine first (headersOf (l :: more)) = _
      rw [ih hmore l, addLine, if_pos hl]
  exact hall h.more hmore h.first

/-- What inserting a header does to the headers. -/
theorem InsertedLines.headersOf_eq (hins : InsertedLines h.lines lines lines')
    (hmore : ∀ l ∈ h.more, continues l = true) (hfirst : continues h.first = false) :
    ∃ hs ks, headersOf lines = hs ++ ks ∧ headersOf lines' = hs ++ h :: ks := by
  obtain ⟨pre, post, -, hpost, rfl, rfl⟩ := hins
  have hlines : ∀ l ∈ (h.lines ++ post).head?, continues l = false := by simpa [Header.lines] using hfirst
  refine ⟨headersOf pre, headersOf post, headersOf_append pre hpost, ?_⟩
  rw [append_assoc, headersOf_append pre hlines, headersOf_append h.lines hpost, headersOf_lines hmore]
  rfl

theorem InsertedLines.forall_mem {P : List UInt8 → Prop} {new : List (List UInt8)}
    (hins : InsertedLines new lines lines') (hnew : ∀ l ∈ new, P l) (hlines : ∀ l ∈ lines, P l) :
        ∀ l ∈ lines', P l := by
  obtain ⟨pre, post, -, -, rfl, rfl⟩ := hins
  simp only [mem_append] at hlines ⊢
  rintro l ((hl | hl) | hl)
  · exact hlines l (.inl hl)
  · exact hnew l hl
  · exact hlines l (.inr hl)

/-- A commit of complete lines, none blank before its blank line, is read as these. -/
theorem headers_commitBytes (hlines : ∀ l ∈ lines, Complete l ∧ blank l = false)
    (text : List UInt8) : headers (commitBytes lines text) = headersOf lines ∧
      (message (commitBytes lines text)).flatten = 0x0a :: text := by
  have hraw : rawLines (commitBytes lines text) = lines ++ [0x0a] :: rawLines text := by
    rw [commitBytes, rawLines_flatten fun l hl => (hlines l hl).1]
    rfl
  have hnot : ∀ l ∈ lines, (!blank l) = true := fun l hl => by simp [(hlines l hl).2]
  have hblank : (!blank [0x0a]) = false := rfl
  rw [headers, message, hraw, takeWhile_append_of_pos hnot, dropWhile_append_of_pos hnot,
    takeWhile_cons_of_neg (by simp [hblank]), dropWhile_cons_of_neg (by simp [hblank]), append_nil]
  exact ⟨rfl, by simp [flatten_rawLines]⟩

theorem flatMap_bytes_headersOf (lines : List (List UInt8)) :
    (headersOf lines).flatMap Header.bytes = lines.flatten := by
  have hflat : (headersOf lines).flatMap Header.bytes = ((headersOf lines).flatMap Header.lines).flatten := by
    induction headersOf lines with
    | nil => rfl
    | cons h hs ih => simp [Header.bytes, ih]
  rw [hflat, flatMap_lines_headersOf]

/-- An unsigned commit's headers. -/
theorem CommitHeader.filter_headersOf (h : CommitHeader lines) (r : Bool) :
    (headersOf lines).filter (!·.isSignature) = headersOf lines ∧
      (headersOf lines).filter (·.isNamed (headerName r)) = [] := by
  have hfirst : ∀ k ∈ headersOf lines, k.isSignature = false := fun k hk =>
    h.not_gpgsig k.first (flatMap_lines_headersOf lines ▸ mem_flatMap.mpr ⟨k, hk, mem_cons_self⟩)
  constructor
  · exact filter_eq_self.mpr fun k hk => by simp [hfirst k hk]
  · refine filter_eq_nil_iff.mpr fun k hk hnamed => ?_
    exact Bool.noConfusion ((hfirst k hk).symm.trans (isSignature_of_isNamed hnamed))

/-- How a commit is read: as headers, each a line with its continuation lines, up to the blank line, and the rest. -/
structure Reads (bytes : List UInt8) (hs : List Header) (body : List (List UInt8)) : Prop where
  lines : hs.flatMap Header.lines ++ body = rawLines bytes
  more : ∀ h ∈ hs, ∀ l ∈ h.more, continues l = true
  first : ∀ h ∈ hs.tail, continues h.first = false
  not_blank : ∀ h ∈ hs, ∀ l ∈ h.lines, blank l = false
  blank : ∀ l ∈ body.head?, blank l = true

theorem reads (bytes : List UInt8) : Reads bytes (headers bytes) (message bytes) where
  lines := by rw [headers, flatMap_lines_headersOf, message, takeWhile_append_dropWhile]
  more := (headersOf_continues _).1
  first := (headersOf_continues _).2
  not_blank := by
    intro h hh l hl
    have hmem : l ∈ (headers bytes).flatMap Header.lines := mem_flatMap.mpr ⟨h, hh, hl⟩
    rw [headers, flatMap_lines_headersOf] at hmem
    simpa using mem_takeWhile_imp hmem
  blank := blank_head?_message bytes

end Signature

/-- **Signature splitting inverts signing and hides nothing**: a commit signed under the header of the repository's
hash, and perhaps under the other hash's too, is split into the commit and the signature; and whatever is split, the
payload is all of it but the headers named for a signature. -/
theorem splitSignedCommit_spec (sha256Repo : Bool) :
    (∀ lines lines' lines'' text signature, CommitHeader lines →
      (lines' = lines ∨ ∃ other, EndsLine other ∧
        InsertedLines (signatureLines (headerName !sha256Repo) other) lines lines') →
      EndsLine signature → InsertedLines (signatureLines (headerName sha256Repo) signature) lines' lines'' →
      splitSignedCommit (commitBytes lines'' text) sha256Repo = some (commitBytes lines text, signature)) ∧
    ∀ bytes payload signature, splitSignedCommit bytes sha256Repo = some (payload, signature) →
      ∃ hs body, Reads bytes hs body ∧ payload = (hs.filter (!·.isSignature)).flatMap Header.bytes ++ body.flatten := by
  constructor
  · intro lines lines' lines'' text signature hlines hother hsig hins
    obtain ⟨hfilter, hnamed⟩ := hlines.filter_headersOf sha256Repo
    have hcomplete : ∀ l ∈ lines, Complete l ∧ blank l = false := fun l hl =>
      ⟨hlines.complete l hl, hlines.not_blank l hl⟩
    obtain ⟨h, hlinesOf, hmore, hall, hfirst, hown, -, hvalue⟩ := signatureLines_spec sha256Repo hsig
    -- with or without the other hash's signature, the headers that count are the unsigned commit's
    obtain ⟨hcomplete', hfilter', hnamed'⟩ : (∀ l ∈ lines', Complete l ∧ blank l = false) ∧
        (headersOf lines').filter (!·.isSignature) = headersOf lines ∧
        (headersOf lines').filter (·.isNamed (headerName sha256Repo)) = [] := by
      rcases hother with rfl | ⟨other, hends, hins'⟩
      · exact ⟨hcomplete, hfilter, hnamed⟩
      · obtain ⟨o, hlinesOf', hmore', hall', hfirst', hown', hnot', -⟩ := signatureLines_spec (!sha256Repo) hends
        rw [Bool.not_not] at hnot'
        rw [hlinesOf'] at hins'
        obtain ⟨hs, ks, hsplit, hsplit'⟩ := hins'.headersOf_eq hmore' hfirst'
        rw [hsplit] at hfilter hnamed
        refine ⟨hins'.forall_mem hall' hcomplete, ?_, ?_⟩
        · rw [hsplit', hsplit]
          simpa [isSignature_of_isNamed hown'] using hfilter
        · rw [hsplit']
          simpa [hnot'] using hnamed
    rw [hlinesOf] at hins
    obtain ⟨hs, ks, hsplit, hsplit'⟩ := hins.headersOf_eq hmore hfirst
    obtain ⟨hheaders, hmessage⟩ := headers_commitBytes (hins.forall_mem hall hcomplete') text
    rw [hsplit] at hfilter' hnamed'
    have hkept : (headersOf lines'').filter (!·.isSignature) = headersOf lines := by
      rw [hsplit', ← hfilter']
      simp [isSignature_of_isNamed hown]
    have howned : (headersOf lines'').filter (·.isNamed (headerName sha256Repo)) = [h] := by
      rw [filter_append, append_eq_nil_iff] at hnamed'
      rw [hsplit', filter_append, hnamed'.1, filter_cons_of_pos hown, hnamed'.2, nil_append]
    have hany : (headersOf lines'').any (·.isNamed (headerName sha256Repo)) = true := by
      rw [hsplit']
      simp [hown]
    rw [splitSignedCommit_eq, hheaders, hmessage, if_pos hany, hkept, howned, flatMap_bytes_headersOf]
    simp [commitBytes, hvalue, fromUtf8Lossy, fromUtf8_utf8]
  · intro bytes payload signature hsplit
    rw [splitSignedCommit_eq] at hsplit
    split_ifs at hsplit
    obtain ⟨rfl, -⟩ := Prod.mk.inj (Option.some.inj hsplit)
    exact ⟨headers bytes, message bytes, reads bytes, rfl⟩

/-- A commit with a header of two lines, signed by both hashes: the other one's signature stands right after the
repository's own. -/
theorem splitSignedCommit_spec_sample :
    splitSignedCommit (commitBytes
      ((["t a\n", " b\n", "gpgsig 1\n", " 2\n", "gpgsig-sha256 3\n", "u\n"] : List String).map utf8)
      (utf8 "gpgsig m")) false =
      some (commitBytes ((["t a\n", " b\n", "u\n"] : List String).map utf8) (utf8 "gpgsig m"), "1\n2\n") :=
  (splitSignedCommit_spec false).1 ((["t a\n", " b\n", "u\n"] : List String).map utf8)
    ((["t a\n", " b\n", "gpgsig-sha256 3\n", "u\n"] : List String).map utf8) _ (utf8 "gpgsig m") "1\n2\n"
    { complete := by
        intro l hl
        have hends : (utf8 "t a\n b\nu\n").getLast? = some 0x0a := by decide +kernel
        have hlines : rawLines (utf8 "t a\n b\nu\n") = (["t a\n", " b\n", "u\n"] : List String).map utf8 := by
          decide +kernel
        exact complete_of_mem_rawLines hends l (hlines ▸ hl)
      not_blank := by decide +kernel
      not_gpgsig := by decide +kernel
      first := by decide +kernel }
    (.inr ⟨"3\n", by rw [EndsLine]; decide +kernel, (["t a\n", " b\n"] : List String).map utf8,
      (["u\n"] : List String).map utf8, by decide, by decide +kernel, by decide +kernel, by decide +kernel⟩)
    (by rw [EndsLine]; decide +kernel)
    ⟨(["t a\n", " b\n"] : List String).map utf8, (["gpgsig-sha256 3\n", "u\n"] : List String).map utf8, by decide,
      by decide +kernel, by decide +kernel, by decide +kernel⟩

end DashForge
