import DashForge.Private.Doc

/-!
# Sealed releases

The fields of a sealed release revision and what opening one says (`private/release.rs`).
-/

namespace DashForge.Release

open Doc (Unreadable)

/-- A release's sealed fields. Hashes and object ids are hex strings, as the source holds them. -/
structure ReleaseFields where
  tag : String := ""
  name : Option String := none
  /-- The whole notes, or their beginning when `notesContinue` is set. -/
  notes : Option String := none
  targetOid : Option String := none
  prerelease : Bool := false
  draft : Bool := false
  yanked : Bool := false
  unpublished : Bool := false
  /-- The full notes are the manifest's. -/
  notesContinue : Bool := false
  importedAuthor : Option String := none
  importedUrl : Option String := none
  importedCreatedAt : Option ℕ := none
  /-- The `packHash` of the sealed manifest. -/
  assetManifest : Option String := none
deriving DecidableEq

/-- The result of opening a revision. -/
inductive Opened where
  | readable (fields : ReleaseFields)
  | unreadable (why : Unreadable)
  | malformed
deriving DecidableEq

end DashForge.Release
