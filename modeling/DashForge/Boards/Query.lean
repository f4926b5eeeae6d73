import DashForge.Boards.Card

/-!
# Board queries

The query language of sources and views (`rules/boards.rs`, with the tokenizer and the free-text
terms of `rules/search.rs`). A query's tokens are qualifiers (`label:bug`, `-is:closed`, a custom
field's comparison) or free text; `queryHolds` tests an item, with its placement when it has one.

A source's query (`parseSourceQuery`) keeps only the qualifiers that read the item itself.
-/

namespace DashForge

open String

/-! ### Tokens and terms -/

/-- The number of characters before white space. -/
def runLength (cs : List Char) : ℕ := (cs.takeWhile fun c => !isWhitespace c).length

/-- The length of the token that starts `cs`: a run without white space or, when the run has a
quote that is closed later, up to the end of the run after the closing quote. -/
def tokenLength (cs : List Char) : ℕ :=
  let run := cs.take (runLength cs)
  match run.idxOf? '"' with
  | none => runLength cs
  | some opening =>
    match (cs.drop (opening + 1)).idxOf? '"' with
    | none => runLength cs
    | some k =>
      let close := opening + 1 + k
      close + 1 + runLength (cs.drop (close + 1))

theorem tokenLength_pos {c : Char} {cs : List Char} (h : isWhitespace c = false) : 0 < tokenLength (c :: cs) := by
  have hrun : 0 < runLength (c :: cs) := by simp [runLength, h]
  simp only [tokenLength]
  split
  · exact hrun
  · split
    · exact hrun
    · omega

/-- Split a text into tokens, keeping quoted phrases whole. -/
def tokens : List Char → List (List Char)
  | [] => []
  | c :: cs =>
    if _h : isWhitespace c then tokens cs
    else (c :: cs).take (tokenLength (c :: cs)) :: tokens ((c :: cs).drop (tokenLength (c :: cs)))
termination_by cs => cs.length
decreasing_by
  · simp
  · have := @tokenLength_pos c cs (by simpa using _h)
    simp only [List.length_drop, List.length_cons]
    omega

/-- One free-text term: a word or a phrase, and whether a row must not hold it. -/
structure SearchTerm where
  text : List Char
  neg : Bool
deriving DecidableEq, Repr

/-- The phrase a term starts with: whether it is negated, its text and what follows its closing
quote. -/
def quotedPhrase : List Char → Option (Bool × List Char × List Char)
  | '"' :: cs => (splitOnce '"' cs).map fun (phrase, rest) => (false, phrase, rest)
  | '-' :: '"' :: cs => (splitOnce '"' cs).map fun (phrase, rest) => (true, phrase, rest)
  | _ => none

/-- A word as a term; a leading `-` negates it. -/
def wordTerm (word : List Char) : Option SearchTerm :=
  match trim (word.filter (· ≠ '"')) with
  | [] => none
  | '-' :: c :: cs => some ⟨c :: cs, true⟩
  | cs => some ⟨cs, false⟩

theorem length_splitOnce {c : Char} {cs a b : List Char} (h : splitOnce c cs = some (a, b)) : b.length ≤ cs.length := by
  unfold splitOnce at h
  split at h
  case isFalse => cases h
  case isTrue =>
    simp only [Option.some.injEq, Prod.mk.injEq] at h
    obtain ⟨-, rfl⟩ := h
    have := (List.dropWhile_sublist (l := cs) fun x => decide (x ≠ c)).length_le
    rw [List.length_tail]
    omega

theorem length_quotedPhrase {cs phrase rest : List Char} {neg : Bool}
    (h : quotedPhrase cs = some (neg, phrase, rest)) : rest.length < cs.length := by
  unfold quotedPhrase at h
  split at h <;> simp only [Option.map_eq_some_iff, Prod.mk.injEq, Prod.exists, reduceCtorEq] at h
  all_goals
    obtain ⟨_, _, hsplit, -, -, rfl⟩ := h
    have := length_splitOnce hsplit
    simp only [List.length_cons]
    omega

/-- The terms of a text in lower case. -/
def searchTermsOf : List Char → List SearchTerm
  | [] => []
  | c :: cs =>
    if _h : isWhitespace c then searchTermsOf cs
    else match _hq : quotedPhrase (c :: cs) with
      | some (neg, phrase, rest) =>
        let terms := searchTermsOf rest
        if (trim phrase).isEmpty then terms else ⟨trim phrase, neg⟩ :: terms
      | none =>
        (wordTerm ((c :: cs).take (runLength (c :: cs)))).toList
          ++ searchTermsOf ((c :: cs).drop (runLength (c :: cs)))
termination_by cs => cs.length
decreasing_by
  · simp
  · exact length_quotedPhrase _hq
  · have : 0 < runLength (c :: cs) := by simp [runLength, _h]
    simp only [List.length_drop, List.length_cons]
    omega

/-- The free text's terms. -/
def searchTerms (env : BoardEnv) (text : String) : List SearchTerm :=
  searchTermsOf (env.toLowercase text).toList

/-! ### Queries -/

/-- What a qualifier reads. -/
inductive QueryKey where
  | is | label | milestone | assignee | author | repo | status | no | field
deriving DecidableEq, Repr

/-- A custom field's comparison. -/
inductive QueryOp where
  | eq | gt | ge | lt | le | range | has
deriving DecidableEq, Repr

/-- One qualifier, negated by a leading `-`. -/
structure QueryPred where
  k : QueryKey
  neg : Bool
  v : Option Scalar
  /-- A `field` qualifier's field id. -/
  f : Option ℕ
  op : Option QueryOp
  /-- A range's upper end. -/
  v2 : Option Scalar
deriving DecidableEq, Repr

namespace QueryPred

def of (k : QueryKey) (neg : Bool) (v : Scalar) : QueryPred := ⟨k, neg, some v, none, none, none⟩

def vText (p : QueryPred) : String := (p.v.bind Scalar.text?).getD ""

end QueryPred

/-- A parsed query. -/
structure BoardQuery where
  preds : List QueryPred
  /-- The free text. -/
  text : String
  /-- The qualifier tokens not applied, as typed. -/
  unresolved : List String
deriving DecidableEq, Repr

def isValues : List String :=
  ["open", "closed", "merged", "unmerged", "issue", "pr", "archived"]

def stateValues : List String := ["open", "closed", "merged", "unmerged"]

def queryKeys : List String :=
  ["is", "state", "label", "milestone", "assignee", "author", "repo", "status", "no"]

def labelMax : ℕ := 30
def milestoneMax : ℕ := 63
def iterRelative : List String := ["@current", "@next", "@previous"]

def unquote (cs : List Char) : List Char := cs.filter (· ≠ '"')

/-- A token's key, whether it is negated, its raw value and its unquoted value. -/
def tokenParts (env : BoardEnv) (tok : List Char) :
    Option (String × Bool × List Char × String) := do
  let (rawKey, rawValue) ← (splitOnce ':' tok).filter fun (rawKey, _) => !rawKey.isEmpty
  let neg := decide (1 < rawKey.length) && decide (['-'] <+: rawKey)
  let key := env.toLowercase (ofList (unquote (if neg then rawKey.tail else rawKey)))
  return (key, neg, rawValue, ofList (unquote rawValue))

/-- A person value: an identity id, or `me`. -/
def personOf (env : BoardEnv) (v : String) : Option String :=
  let t := if ['@'] <+: v.toList then ofList v.toList.tail else v
  if env.toLowercase t = "me" then some "me"
  else if isIdentifier t then some t else none

/-- The text before and after the first `..`. -/
def splitDots : List Char → Option (List Char × List Char)
  | [] => none
  | '.' :: '.' :: cs => some ([], cs)
  | c :: cs => (splitDots cs).map fun (a, b) => (c :: a, b)

/-- A comparison value's op and operands. -/
def comparison (v : List Char) : QueryOp × List Char × Option (List Char) :=
  match splitDots v, v with
  | some (a, b), _ => (.range, a, some b)
  | none, '>' :: '=' :: rest => (.ge, rest, none)
  | none, '<' :: '=' :: rest => (.le, rest, none)
  | none, '>' :: rest => (.gt, rest, none)
  | none, '<' :: rest => (.lt, rest, none)
  | none, v => (.eq, v, none)

/-- `-?\d{1,15}(\.\d{1,15})?`. -/
def isQueryNumber (s : List Char) : Bool :=
  let body := if ['-'] <+: s then s.tail else s
  let digits (d : List Char) := decide (1 ≤ d.length ∧ d.length ≤ 15) && d.all Char.isDigit
  match splitOnce '.' body with
  | some (int, frac) => digits int && digits frac
  | none => digits body

/-- A typed comparison operand. -/
def operand (env : BoardEnv) (field : BoardField) (s : List Char) : Option Scalar :=
  match field.kind with
  | .num => if isQueryNumber s then (env.parseF64 (ofList s)).map .num else none
  | .date =>
    let str := ofList s
    if env.toLowercase str = "@today" then some (.text "@today")
    else (dateDays str).map fun _ => .text str
  | .iter =>
    let low := env.toLowercase (ofList s)
    if iterRelative.contains low then some (.text low)
    else
      let lead := (env.toLowercase field.name).toList ++ [' ']
      let n := (low.toList.dropPrefix? lead).getD low.toList
      if decide (1 ≤ n.length ∧ n.length ≤ 5) && !decide (['0'] <+: n) && n.all Char.isDigit then
        ((parseI64 n).filter fun n => decide (n - 1 ≤ iterIndexMax)).map fun n => .ofInt (n - 1)
      else none
  | _ => none

/-- A custom field qualifier. -/
def fieldPred (env : BoardEnv) (field : BoardField) (value : String) (neg : Bool) :
    Option QueryPred :=
  let pred (op : QueryOp) (v : Scalar) (v2 : Option Scalar) : QueryPred :=
    ⟨.field, neg, some v, some field.id, some op, v2⟩
  if value = "" then none
  else match field.kind with
    | .sel => do
      let opt ← (field.options.getD []).find? fun o =>
        env.toLowercase o.name = env.toLowercase value
      return pred .eq (.ofInt opt.id) none
    | .text =>
      if charLen value ≤ textValueMax then some (pred .has (.text (env.toLowercase value)) none)
      else none
    | _ =>
      match comparison value.toList with
      | (.range, a, some b) =>
        if a = ['*'] ∧ b = ['*'] then none
        else if a = ['*'] then (operand env field b).map fun hi => pred .le hi none
        else if b = ['*'] then (operand env field a).map fun lo => pred .ge lo none
        else do
          let lo ← operand env field a
          let hi ← operand env field b
          return pred .range lo (some hi)
      | (op, a, _) => (operand env field a).map fun v => pred op v none

/-- The field a name (in lower case) stands for; of two fields with one name, the later. -/
def fieldByName (env : BoardEnv) (spec : BoardSpec) (name : String) : Option BoardField :=
  spec.fields.reverse.find? fun f => env.toLowercase f.name = name

/-- A qualifier read; `repos` resolves the repository names a query types. -/
def qualifier (env : BoardEnv) (key value : String) (neg : Bool) (spec : BoardSpec)
    (repos : String → Option String) : Option QueryPred :=
  let low := env.toLowercase value
  let given (p : Bool) (k : QueryKey) (v : String) : Option QueryPred :=
    if p then some (.of k neg (.text v)) else none
  match key with
  | "is" => given (isValues.contains low) .is low
  | "state" => given (stateValues.contains low) .is low
  | "label" => given (value ≠ "" && decide (charLen value ≤ labelMax)) .label value
  | "milestone" => given (value ≠ "" && decide (charLen value ≤ milestoneMax)) .milestone value
  | "assignee" => (personOf env value).map fun who => .of .assignee neg (.text who)
  | "author" => (personOf env value).map fun who => .of .author neg (.text who)
  | "repo" =>
    ((if isIdentifier value then some value else repos value).filter isIdentifier).map fun id =>
      .of .repo neg (.text id)
  | "status" =>
    (spec.columns.find? fun c => env.toLowercase c.name = low).map fun c =>
      .of .status neg (.ofInt c.id)
  | "no" =>
    if ["label", "assignee", "milestone", "status"].contains low then
      some (.of .no neg (.text low))
    else (fieldByName env spec low).map fun f => .of .no neg (.text ("f" ++ toString f.id))
  | key => (fieldByName env spec key).bind fun f => fieldPred env f value neg

/-- Whether a qualifier reads the board or the reader, not only the item. -/
def boardOnly (p : QueryPred) : Bool :=
  match p.k with
  | .status | .field => true
  | .no => p.vText = "status" || (fieldKeyId p.vText).isSome
  | .is => p.vText = "archived"
  | .assignee | .author => p.vText = "me"
  | _ => false

/-- The parts of a token that is a qualifier. -/
def qualifierParts (env : BoardEnv) (spec : BoardSpec) (tok : List Char) :
    Option (String × Bool × String) := do
  let (key, neg, raw, value) ← tokenParts env tok
  if key ≠ "" ∧ (value ≠ "" ∨ queryKeys.contains key ∨ (fieldByName env spec key).isSome) ∧
      ¬['/', '/'] <+: raw then
    return (key, neg, value)
  else none

/-- One token read after the query `out`, whose free words are in `free`. -/
def queryToken (env : BoardEnv) (spec : BoardSpec) (forSource : Bool)
    (repos : String → Option String) (out : List QueryPred × List String × List String)
    (tok : List Char) : List QueryPred × List String × List String :=
  let (preds, free, unresolved) := out
  match qualifierParts env spec tok with
  | none => (preds, free ++ [ofList tok], unresolved)
  | some (key, neg, value) =>
    match qualifier env key value neg spec repos with
    | some pred =>
      if forSource && boardOnly pred then (preds, free, unresolved ++ [ofList tok])
      else (preds ++ [pred], free, unresolved)
    | none => (preds, free, unresolved ++ [ofList tok])

def parseQuery (env : BoardEnv) (text : String) (spec : BoardSpec) (forSource : Bool)
    (repos : String → Option String) : BoardQuery :=
  let (preds, free, unresolved) :=
    (tokens text.toList).foldl (queryToken env spec forSource repos) ([], [], [])
  ⟨preds, " ".intercalate free, unresolved⟩

/-- Read a source's query, less what depends on the board or the reader. -/
def parseSourceQuery (env : BoardEnv) (text : String) (spec : BoardSpec) : BoardQuery :=
  parseQuery env text spec true fun _ => none

/-! ### Whether an item holds a query -/

/-- What a query reads besides the item: the viewer and the time. -/
structure QueryContext where
  me : Option String
  now : ℤ
deriving DecidableEq, Repr

/-- An `iter` field's first day number and length. -/
def iterOf (field : BoardField) : Option (ℤ × ℤ) := do
  if field.kind ≠ .iter then none
  let days ← field.days.filter (0 < ·)
  return (← dateDays (← field.start), days)

/-- The index of the iteration of `field` that holds a time. -/
def iterationAt (field : BoardField) (dateMs : ℤ) : Option ℤ := do
  let (start, days) ← iterOf field
  let k := (dateMs / dayMs - start) / days
  if 0 ≤ k ∧ k ≤ iterIndexMax then some k else none

/-- An operand with `@today` and the relative iterations resolved. -/
def resolveOperand (field : BoardField) (v : Scalar) (ctx : QueryContext) : Option Scalar :=
  match v.text? with
  | some "@today" => some (.text (dateOf ctx.now))
  | some rel =>
    if iterRelative.contains rel then
      let cur := iterationAt field ctx.now
      let start := (field.start.bind dateDays).getD 0
      let before := ctx.now < start * dayMs
      let k := match rel with
        | "@current" => cur
        | "@next" => (cur.map (· + 1)).or (if before then some 0 else none)
        | _ => (cur.filter fun c => decide (0 < c)).map (· - 1)
      k.map .ofInt
    else some v
  | none => some v

def compareScalar (env : BoardEnv) : Scalar → Scalar → Ordering
  | .num a, .num b => cmp a b
  | x, y => cmp (x.display env) (y.display env)

def fieldHolds (env : BoardEnv) (p : QueryPred) (field : BoardField) (value : Option Scalar)
    (ctx : QueryContext) : Bool :=
  match value, p.v with
  | some value, some pv =>
    if p.op = some .has then
      decide ((pv.display env).toList <:+: (env.toLowercase (value.display env)).toList)
    else match resolveOperand field pv ctx with
      | none => false
      | some a =>
        let c := compareScalar env value a
        match p.op with
        | some .eq => c == .eq
        | some .gt => c == .gt
        | some .ge => c != .lt
        | some .lt => c == .lt
        | some .le => c != .gt
        | some .range =>
          (p.v2.bind fun b => resolveOperand field b ctx).any fun b =>
            c != .lt && compareScalar env value b != .gt
        | _ => false
  | _, _ => false

/-- Whether the item's title and number hold every free-text term. -/
def textMatches (env : BoardEnv) (text : String) (item : BoardItem) : Bool :=
  let title := (env.toLowercase item.title).toList
  let digits (cs : List Char) := !cs.isEmpty && cs.all Char.isDigit
  (searchTerms env text).all fun t =>
    let holds := match (t.text.dropPrefix? ['#']).filter digits with
      | some n => parseU64 n == some item.number
      | none =>
        (digits t.text && parseU64 t.text == some item.number) || decide (t.text <:+: title)
    holds != t.neg

def predHolds (env : BoardEnv) (p : QueryPred) (item : BoardItem) (placement : Option Placement)
    (spec : BoardSpec) (ctx : QueryContext) : Bool :=
  let eqi (a b : String) := env.toLowercase a = env.toLowercase b
  let v := p.vText
  let who := if v = "me" then ctx.me else some v
  match p.k with
  | .is =>
    match v with
    | "open" => item.state = .isOpen
    | "closed" => item.state ≠ .isOpen
    | "merged" => item.state = .merged
    | "unmerged" => item.state ≠ .merged
    | "issue" => item.kind = .issue
    | "pr" => item.kind = .pr
    | _ => placement.any fun pl => pl.archived.isSome
  | .label => item.labels.any fun l => eqi l v
  | .milestone => item.milestone.any fun m => eqi m v
  | .assignee => who.any fun who => item.assignees.contains who
  | .author => who.any fun who => item.author = who
  | .repo => item.repoId = v
  | .status => placement.any fun pl => some (.ofInt pl.col) = p.v
  | .no =>
    match v with
    | "label" => item.labels.isEmpty
    | "assignee" => item.assignees.isEmpty
    | "milestone" => item.milestone.isNone
    | "status" => placement.any fun pl => pl.col = 0
    | key => placement.any fun pl =>
      (fieldKeyId key).all fun id => (List.lookup id pl.fields).isNone
  | .field =>
    match p.f.bind spec.field, placement with
    | some field, some pl => fieldHolds env p field (List.lookup field.id pl.fields) ctx
    | _, _ => false

/-- Whether an item (with its placement; none for a source) holds every qualifier, each negated by
`-`, and the free text. -/
def queryHolds (env : BoardEnv) (item : BoardItem) (placement : Option Placement)
    (spec : BoardSpec) (query : BoardQuery) (ctx : QueryContext) : Bool :=
  query.preds.all (fun p => predHolds env p item placement spec ctx != p.neg)
    && textMatches env query.text item

/-- Whether `source` includes `item`: its repository (absent: `home`), kind and query. -/
def sourceMatches (env : BoardEnv) (source : BoardSource) (query : BoardQuery) (item : BoardItem)
    (home : String) (spec : BoardSpec) (now : ℤ) : Bool :=
  let kindOk := match source.k with
    | .issues => item.kind = .issue
    | .pulls => item.kind = .pr
    | .all => true
  source.r.getD home = item.repoId && kindOk && queryHolds env item none spec query ⟨none, now⟩

end DashForge
