import DashForge.Rules.CodeOwners
import DashForge.Rules.RequiredChecks

/-!
# The code owners' approval

With a branch policy's `requireCodeOwners` on, every changed path that has owners needs the approval of one of them
(`codeOwnerReview`, `rules/codeowners.rs`). An owner token stands for an identity where it is one or a name that was
resolved to one (`identityOf`).

`met_codeOwnerReview_iff` says when the rule is met: always where it is off, never where the file could not be read, else
where each owned path is approved. `codeOwners_spec` puts it with what the file's patterns match and which of its rules
decide.
-/

namespace DashForge

namespace CodeOwners

/-- What an owner token names. -/
inductive OwnerKind where
  | name
  | identity
  | team
  | email
  | role
  | invalid
deriving DecidableEq, Repr

section Tokens

variable (decodesIdentifier : String → Bool)

/-- Whether a text is a base58 identity id. -/
def isIdentityToken (s : String) : Bool :=
  (40 ≤ s.utf8ByteSize && s.utf8ByteSize ≤ 44) &&
    (s.toList.all fun c => c.isAlphanum && !(['0', 'O', 'I', 'l'].contains c)) && decodesIdentifier s

/-- The DPNS label that an owner names. -/
def dpnsLabel (owner : List Char) : Option (List Char) :=
  let label := if (owner.map Char.toLower).drop (owner.length - 5) = ".dash".toList then owner.take (owner.length - 5)
    else owner
  if label ≠ [] ∧ label.all fun c => c.isAlphanum || c == '-' then some label else none

/-- A token of the form `user@example.com`. -/
def isEmail (token : List Char) : Bool :=
  (splitOnce '@' token).any fun x => x.1 ≠ [] && x.2.contains '.' && !x.2.contains '@'

/-- Classify an owner token. -/
def ownerKind (token : String) : OwnerKind :=
  match token.toList with
  | '@' :: '@' :: _ => .role
  | '@' :: rest =>
    if rest.contains '/' then .team
    else if isIdentityToken decodesIdentifier (String.ofList rest) then .identity
    else if (dpnsLabel rest).isSome then .name
    else .invalid
  | cs =>
    if isIdentityToken decodesIdentifier token then .identity
    else if isEmail cs then .email
    else .invalid

/-- The identity that an identity token names. -/
def tokenIdentity (token : String) : Option String :=
  if ownerKind decodesIdentifier token = .identity then
    some (String.ofList ((token.toList.dropPrefix? ['@']).getD token.toList))
  else none

/-- The identity that a token stands for, given what the names resolve to. -/
def identityOf (resolved : SortedMap String (Option String)) (token : String) : Option String :=
  match ownerKind decodesIdentifier token with
  | .identity => tokenIdentity decodesIdentifier token
  | .name => (resolved.lookup token).join
  | _ => none

end Tokens

/-- The code owners file that a merge is judged against. -/
inductive OwnersFile where
  | absent
  | unreadable
  | parsed (owners : CodeOwners)

/-- A changed path that waits for the approval of an owner. -/
structure PendingFile where
  path : String
  owners : List String
  /-- Some owner could approve it. -/
  approvable : Bool
deriving DecidableEq, Repr

/-- Where a pull request stands against the rule. -/
structure CodeOwnerStatus where
  met : Bool
  unreadable : Bool
  pending : List PendingFile
deriving DecidableEq, Repr

section Review

variable (decodesIdentifier : String → Bool) (approvals : Approvals) (oracle : RoleOracle) (policy : BranchPolicy)
  (resolved : SortedMap String (Option String)) (author : String)

/-- What a path waits for, where it is owned and not approved. -/
def pendingFile (owners : CodeOwners) (path : String) : Option PendingFile :=
  let tokens := owners.ownersOf path
  let ids := tokens.filterMap (identityOf decodesIdentifier resolved)
  if tokens = [] then none
  else if ids.any fun id => decide (id ∈ approvals.approvers) && countsFor oracle policy.toPolicy id then none
  else some ⟨path, tokens, ids.any fun id => id != author && countsFor oracle policy.toPolicy id⟩

/-- Judge a pull request's changed paths against the rule. -/
def codeOwnerReview (file : OwnersFile) (paths : List String) : CodeOwnerStatus :=
  if !policy.requireCodeOwners then ⟨true, false, []⟩
  else
    match file with
    | .absent => ⟨true, false, []⟩
    | .unreadable => ⟨false, true, []⟩
    | .parsed owners =>
      let pending := (sortedDistinct paths).filterMap
        (pendingFile decodesIdentifier approvals oracle policy resolved author owners)
      ⟨pending.isEmpty, false, pending⟩

/-- A path's owners by the file. -/
def OwnersFile.ownersOf (file : OwnersFile) (path : String) : List String :=
  match file with
  | .parsed owners => owners.ownersOf path
  | _ => []

/-- Some owner approved whose role counts. -/
def ApprovedBy (tokens : List String) : Prop :=
  ∃ token ∈ tokens, ∃ id, identityOf decodesIdentifier resolved token = some id ∧ id ∈ approvals.approvers ∧
    countsFor oracle policy.toPolicy id = true

variable {decodesIdentifier approvals oracle policy resolved author}

theorem pendingFile_eq_none {owners : CodeOwners} {path : String} :
    pendingFile decodesIdentifier approvals oracle policy resolved author owners path = none ↔
      (owners.ownersOf path ≠ [] → ApprovedBy decodesIdentifier approvals oracle policy resolved
          (owners.ownersOf path)) := by
  have happroved : ((owners.ownersOf path).filterMap (identityOf decodesIdentifier resolved)).any (fun id =>
      decide (id ∈ approvals.approvers) && countsFor oracle policy.toPolicy id) = true ↔
        ApprovedBy decodesIdentifier approvals oracle policy resolved (owners.ownersOf path) := by
    simp only [List.any_eq_true, List.mem_filterMap, Bool.and_eq_true, decide_eq_true_eq, ApprovedBy]
    constructor
    · rintro ⟨id, ⟨token, htoken, hid⟩, hmem, hcounts⟩
      exact ⟨token, htoken, id, hid, hmem, hcounts⟩
    · rintro ⟨token, htoken, id, hid, hmem, hcounts⟩
      exact ⟨id, ⟨token, htoken, hid⟩, hmem, hcounts⟩
  simp only [pendingFile]
  split_ifs with hnil hyes
  · exact iff_of_true rfl fun hne => absurd hnil hne
  · exact iff_of_true rfl fun _ => happroved.mp hyes
  · exact iff_of_false (by simp) fun h => hyes (happroved.mpr (h hnil))

/-- When the rule is met. -/
theorem met_codeOwnerReview_iff {file : OwnersFile} {paths : List String} :
    (codeOwnerReview decodesIdentifier approvals oracle policy resolved author file paths).met = true ↔
      policy.requireCodeOwners = false ∨ file ≠ .unreadable ∧ ∀ path ∈ paths, file.ownersOf path ≠ [] →
        ApprovedBy decodesIdentifier approvals oracle policy resolved (file.ownersOf path) := by
  cases hrequire : policy.requireCodeOwners with
  | false => simp [codeOwnerReview, hrequire]
  | true =>
    cases file with
    | absent => simp [codeOwnerReview, OwnersFile.ownersOf]
    | unreadable => simp [codeOwnerReview, hrequire]
    | parsed owners =>
      simp only [codeOwnerReview, hrequire, Bool.not_true, Bool.false_eq_true, if_false, List.isEmpty_iff,
        List.filterMap_eq_nil_iff, mem_sortedDistinct, pendingFile_eq_none, OwnersFile.ownersOf, Bool.true_eq_false,
        false_or]
      exact ⟨fun h => ⟨by simp, h⟩, fun h => h.2⟩

end Review

/-- Code owners are matched as their patterns are read, decided by the last rule that matches in each section, and, where
the rule is on and the file was read, asked for on every owned path. -/
theorem codeOwners_spec :
    (∀ toks name, Glob.globMatches (α := Char) toks name = true ↔ Glob.Matches toks name) ∧
    (∀ segs path, (matchesFrom segs 0 path 0 .empty).1 = true ↔ SegsMatch segs path) ∧
    (∀ name : List Char, ∀ trailing : Bool, name ≠ [] → '/' ∉ name → name ≠ ['*', '*'] →
      (trailing = true → name.getLast? ≠ some '\\') →
      compile (name ++ if trailing then ['/'] else []) =
        some (.any :: segOf name :: if trailing then [.any] else [])) ∧
    (∀ (owners : CodeOwners) path, owners.decidingRules path =
      (List.range owners.sections.length).filterMap fun i =>
        (owners.rules.filter fun rule => rule.inSection = i && rule.matchesParts (pathParts path)).getLast?) ∧
    (∀ (rule : OwnerRule) parts, rule.matchesParts parts = true ↔ rule.segs ≠ [] ∧ SegsMatch rule.segs parts) ∧
    ∀ decodesIdentifier approvals oracle (policy : BranchPolicy) resolved author file paths,
      (codeOwnerReview decodesIdentifier approvals oracle policy resolved author file paths).met = true ↔
        policy.requireCodeOwners = false ∨ file ≠ .unreadable ∧ ∀ path ∈ paths, file.ownersOf path ≠ [] →
          ApprovedBy decodesIdentifier approvals oracle policy resolved (file.ownersOf path) :=
  ⟨fun _ _ => Glob.globMatches_iff, fun _ _ => matchesFrom_iff,
    fun _ trailing hne hslash hany hesc => compile_free hne hslash hany trailing hesc,
      fun owners path => decidingRules_eq owners path,
    fun _ _ => matchesParts_iff, fun _ _ _ _ _ _ _ _ => met_codeOwnerReview_iff⟩

/-- A file that gives every path to one owner. -/
def everyPath : CodeOwners := parseCodeOwners id "* @alice"

/-- With the rule off, the owner of a path is not asked for. -/
theorem met_without_rule :
    (codeOwnerReview (fun _ => false) ⟨∅, ∅⟩ ⟨[]⟩ { requiredApprovals := 0, approverRole := 0 }
      (.ofList [("@alice", some "a")])
      "b" (.parsed everyPath) ["x"]).met = true ∧
      everyPath.ownersOf "x" = ["@alice"] ∧
      ¬ApprovedBy (fun _ => false) ⟨∅, ∅⟩ ⟨[]⟩ { requiredApprovals := 0, approverRole := 0 }
        (.ofList [("@alice", some "a")])
        (everyPath.ownersOf "x") := by
  refine ⟨rfl, by decide, ?_⟩
  rintro ⟨token, -, id, -, hmem, -⟩
  exact absurd hmem (Finset.notMem_empty id)

end CodeOwners

end DashForge
