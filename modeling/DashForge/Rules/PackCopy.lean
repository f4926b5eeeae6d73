import DashForge.Data.SortBy
import DashForge.Rules.Role
import Mathlib.Data.Finset.Basic

/-!
# Pack copies and the read order

A pack of a repository has one `packManifest` per uploader (`rules/v2.rs`). A reader ranks the
copies of a pack by the uploader's role and reads the first one whose bytes verify
(`selectPackCopy`); `packReadOrder` lists every readable pack, the ones another readable pack claims
to consolidate last.
-/

namespace DashForge

/-- Maintainers, then other members, then bots, then everyone else. -/
def roleRank : Option Role → ℕ
  | some .maintainer => 0
  | some .writer | some .triage | some .reader => 1
  | some .bot => 2
  | none => 3

/-- The `supersedes` a copy's claims count from: none from a bot's. -/
def claimedSupersedes (role : Option Role) (supersedes : List String) : List String :=
  if role = some .bot then [] else supersedes

/-- One writer's `packManifest` for a pack, with whether its bytes verified. -/
structure PackCopy where
  id : String
  packHash : String
  ownerRole : Option Role
  createdAt : ℕ
  verified : Bool
  /-- The packs this manifest says the pack consolidates. -/
  supersedes : List String
deriving DecidableEq, Repr

/-- The order a reader tries copies in. -/
def PackCopy.rankKey (c : PackCopy) : ℕ ×ₗ ℕ ×ₗ String :=
  toLex (roleRank c.ownerRole, toLex (c.createdAt, c.id))

def orderPackCopies (copies : List PackCopy) : List PackCopy := sortByKey PackCopy.rankKey copies

/-- The copy to read a pack from: the first verified one. -/
def selectPackCopy (copies : List PackCopy) : Option PackCopy :=
  (orderPackCopies copies).find? fun c => c.verified

/-- One readable pack. -/
structure PackPick where
  packHash : String
  copyId : String
  /-- The selected copy of another readable pack lists this pack. -/
  superseded : Bool
deriving DecidableEq, Repr

/-- The copies selected for the packs that have a verified one, by pack hash. -/
def selectedCopies (copies : List PackCopy) : List PackCopy :=
  (sortedDistinct (copies.map PackCopy.packHash)).filterMap fun hash =>
    selectPackCopy (copies.filter fun c => c.packHash == hash)

/-- The packs the selected copies say they consolidate. -/
def supersededBy (selected : List PackCopy) : Finset String :=
  (selected.flatMap fun c =>
    (claimedSupersedes c.ownerRole c.supersedes).filter fun s => s != c.packHash).toFinset

/-- Every readable pack of one kind, in the order a reader fetches them. -/
def packReadOrder (copies : List PackCopy) : List PackPick :=
  let selected := selectedCopies copies
  let isSuperseded (c : PackCopy) : Bool := decide (c.packHash ∈ supersededBy selected)
  (sortByKey (fun c => toLex (isSuperseded c, toLex (c.createdAt, c.packHash))) selected).map
    fun c => ⟨c.packHash, c.id, isSuperseded c⟩

end DashForge
