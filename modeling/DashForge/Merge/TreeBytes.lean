import DashForge.Merge.GitObjects

/-!
# Trees as bytes

A tree that passes the checks has entries of distinct names that git could write (`EntryOk`). The bytes of such
entries are read back as the entries in git's order, and pass the checks (`checkTree_serializeTree`).
-/

namespace DashForge.Git

open List Option

variable {oid : String} {bytes : List UInt8} {e : TreeEntry} {entries : List TreeEntry}

/-- An entry that a tree which passes the checks may have. -/
structure EntryOk (e : TreeEntry) : Prop where
  mode : e.mode ∈ gitTreeModes
  nul : 0 ∉ utf8 e.name
  id : ∃ bs, e.oid = hexEncode bs ∧ bs.length = 20 ∧ ∃ b ∈ bs, b ≠ 0
  length : (utf8 e.name).length ≤ maxTreeEntryName
  legal : e.name ≠ "" ∧ '/' ∉ e.name.toList ∧ '\\' ∉ e.name.toList ∧ isDotGitLike e.name = false
  special : specialFileName e.name ≠ none → e.mode = modeFile ∨ e.mode = modeExecutable
  symlink : ¬(e.mode = modeSymlink ∧ isIgnoreOrMailmap e.name = true)

/-- An entry whose bytes can be told from those after it. -/
structure Framed (e : TreeEntry) : Prop where
  nul : 0 ∉ utf8 e.name
  id : ∃ bs, e.oid = hexEncode bs ∧ bs.length = 20

theorem EntryOk.framed (h : EntryOk e) : Framed e :=
  have ⟨bs, hoid, hlength, _⟩ := h.id
  ⟨h.nul, bs, hoid, hlength⟩

/-! ### Reading -/

theorem utf8_of_fromUtf8 {bs : List UInt8} {s : String} (h : fromUtf8 bs = some s) : utf8 s = bs := by
  rw [fromUtf8, String.fromUTF8?] at h
  split at h
  · next hvalid =>
    obtain rfl := some.inj h
    simp [utf8, String.fromUTF8]
  · cases h

variable {names : List String} {prev : Option (List UInt8)}

theorem RowOk.entryOk {row : TreeRow} {name : String}
    {key : List UInt8} (h : RowOk names prev row name key) (hnul : 0 ∉ row.raw) (hlength : row.oid.length = 20) :
    EntryOk row.entry := by
  have hname := h.entry_name
  have hutf8 : utf8 row.entry.name = row.raw := by rw [hname]; exact utf8_of_fromUtf8 h.decodes
  exact ⟨h.mode, hutf8 ▸ hnul, ⟨row.oid, rfl, hlength, h.not_null⟩, hutf8 ▸ h.length,
    hname ▸ h.legal, hname ▸ h.special,
    hname ▸ h.symlink⟩

theorem zero_not_mem_raw (bytes : List UInt8) : 0 ∉ (takeRow bytes).1.raw := by
  intro h
  have := mem_takeWhile_imp h
  simp at this

theorem length_oid_of_whole (h : (takeRow bytes).1.whole = true) : (takeRow bytes).1.oid.length = 20 := by
  simp only [takeRow, decide_eq_true_eq, length_take, length_drop] at h ⊢
  omega

theorem mem_treeRowsFrom {n : ℕ} {row : TreeRow} (h : row ∈ treeRowsFrom n bytes) : ∃ rest, row = (takeRow rest).1 := by
  induction n generalizing bytes with
  | zero => cases bytes <;> simp [treeRowsFrom] at h
  | succ n ih =>
    cases bytes with
    | nil => simp [treeRowsFrom] at h
    | cons b bytes =>
      rw [treeRowsFrom] at h
      · rcases mem_cons.mp h with rfl | h
        · exact ⟨_, rfl⟩
        · exact ih h
      · simp

theorem entryOk_of_mem (h : checkTree oid bytes = .ok ()) (he : e ∈ parseTree bytes) : EntryOk e := by
  obtain ⟨row, hrow, rfl⟩ := mem_map.mp he
  obtain ⟨names, prev, name, key, hok⟩ := rowOk_of_mem h hrow
  obtain ⟨rest, rfl⟩ := mem_treeRowsFrom hrow
  exact hok.entryOk (zero_not_mem_raw rest) (length_oid_of_whole hok.whole)

theorem nodup_of_checkRows {rows : List TreeRow} (h : checkRows oid names prev rows = .ok ()) :
    (rows.map fun row => row.entry.name).Nodup ∧ ∀ row ∈ rows, row.entry.name ∉ names := by
  induction rows generalizing names prev with
  | nil => simp
  | cons row rows ih =>
    obtain ⟨name, key, hok, hrest⟩ := checkRows_cons h
    obtain ⟨hnodup, hnew⟩ := ih hrest
    have hname := hok.entry_name
    refine ⟨nodup_cons.mpr ⟨fun hmem => ?_, hnodup⟩, fun r hr => ?_⟩
    · obtain ⟨r, hr, heq⟩ := mem_map.mp hmem
      exact hnew r hr (heq ▸ hname ▸ mem_cons_self)
    · rcases mem_cons.mp hr with rfl | hr
      · exact hname ▸ hok.fresh
      · exact fun hmem => hnew r hr (mem_cons_of_mem _ hmem)

theorem nodup_of_checkTree (h : checkTree oid bytes = .ok ()) : ((parseTree bytes).map TreeEntry.name).Nodup := by
  rw [parseTree, List.map_map]
  exact (nodup_of_checkRows h).1

/-! ### Writing -/

/-- An entry's row. -/
def rowOf (e : TreeEntry) : TreeRow where
  modeText := modeBytes e.mode
  raw := utf8 e.name
  oid := (hexDecode e.oid).getD []
  whole := true

theorem modeBytes_spec : ∀ mode ∈ gitTreeModes,
    parseMode (modeBytes mode) = mode ∧ isModeText (modeBytes mode) = true := by
  decide +kernel

theorem takeWhile_append_cons {α : Type} {p : α → Bool} {l rest : List α} {a : α} (hl : ∀ x ∈ l, p x = true)
    (ha : p a = false) : (l ++ a :: rest).takeWhile p = l := by
  rw [takeWhile_append_of_pos hl, takeWhile_cons_of_neg (by simp [ha]), append_nil]

theorem space_not_mem_modeBytes (mode : ℕ) : 0x20 ∉ modeBytes mode := fun h => by
  have hmem := mem_of_mem_utf8 h (by decide)
  rw [String.toList_ofList] at hmem
  exact absurd (Nat.isDigit_of_mem_toDigits (by decide) (by decide) hmem) (by decide)

theorem hexDecode_hexEncode (bs : List UInt8) : hexDecode (hexEncode bs) = some bs := by
  rw [hexDecode, toList_hexEncode, hexDecodeDigits_hexDigits]

theorem takeRow_entryBytes (h : Framed e) {rest : List UInt8} (hbytes : entryBytes e = some bytes) :
    takeRow (bytes ++ rest) = (rowOf e, rest) := by
  obtain ⟨bs, hoid, hlength⟩ := h.id
  have hdecode : hexDecode e.oid = some bs := hoid ▸ hexDecode_hexEncode bs
  rw [entryBytes, hdecode] at hbytes
  obtain rfl := some.inj hbytes
  have hspace := space_not_mem_modeBytes e.mode
  have hmode : (modeBytes e.mode ++ 0x20 :: (utf8 e.name ++ 0 :: bs) ++ rest).takeWhile (· ≠ 0x20) =
      modeBytes e.mode := by
    rw [append_assoc, cons_append]
    exact takeWhile_append_cons (fun x hx => decide_eq_true fun (heq : x = 0x20) => hspace (heq ▸ hx)) (by simp)
  have hdrop : (modeBytes e.mode ++ 0x20 :: (utf8 e.name ++ 0 :: bs) ++ rest).drop ((modeBytes e.mode).length + 1) =
      utf8 e.name ++ 0 :: (bs ++ rest) := by
    simp [drop_append]
  have hname : (utf8 e.name ++ 0 :: (bs ++ rest)).takeWhile (· ≠ 0) = utf8 e.name :=
    takeWhile_append_cons (fun x hx => decide_eq_true fun (heq : x = 0) => h.nul (heq ▸ hx)) (by simp)
  rw [takeRow]
  simp only [hmode, hdrop, hname, drop_left, rowOf, hdecode, getD_some, Prod.mk.injEq, TreeRow.mk.injEq,
    true_and]
  refine ⟨⟨?_, ?_⟩, ?_⟩
  · simp [← hlength]
  · simp [hlength]
  · rw [drop_succ_cons, ← hlength, drop_left]

theorem entryBytes_ne_nil (h : entryBytes e = some bytes) : bytes ≠ [] := by
  rw [entryBytes] at h
  obtain ⟨bs, -, rfl⟩ := map_eq_some_iff.mp h
  simp

theorem treeRowsFrom_flatten {parts : List (List UInt8)} (hok : ∀ e ∈ entries, Framed e)
    (h : entries.mapM entryBytes = some parts) {n : ℕ} (hn : parts.flatten.length ≤ n) :
    treeRowsFrom n parts.flatten = entries.map rowOf := by
  induction entries generalizing parts n with
  | nil =>
    obtain rfl : parts = [] := by simpa using h.symm
    cases n <;> simp [treeRowsFrom]
  | cons e entries ih =>
    rw [mapM_cons] at h
    obtain ⟨bytes, hbytes, h⟩ := bind_eq_some_iff.mp h
    obtain ⟨rest, hrest, h⟩ := bind_eq_some_iff.mp h
    obtain rfl := some.inj h
    have hne := entryBytes_ne_nil hbytes
    have hlength : 0 < bytes.length := length_pos_iff.mpr hne
    rw [flatten_cons, length_append] at hn
    obtain ⟨m, rfl⟩ : ∃ m, n = m + 1 := ⟨n - 1, by omega⟩
    have hcons : bytes ++ rest.flatten ≠ [] := fun h => hne (append_eq_nil_iff.mp h).1
    rw [flatten_cons]
    obtain ⟨b, more, hb⟩ := exists_cons_of_ne_nil hcons
    rw [hb, treeRowsFrom, ← hb, takeRow_entryBytes (hok e mem_cons_self) hbytes, map_cons,
      ih (fun x hx => hok x (mem_cons_of_mem _ hx)) hrest (by omega)]
    exact cons_ne_nil _ _

theorem entry_rowOf (h : Framed e) (hmode : parseMode (modeBytes e.mode) = e.mode) : (rowOf e).entry = e := by
  obtain ⟨bs, hoid, -⟩ := h.id
  have hdecode : hexDecode e.oid = some bs := hoid ▸ hexDecode_hexEncode bs
  cases e
  simp only [TreeRow.entry, rowOf, TreeEntry.mk.injEq, fromUtf8Lossy, fromUtf8_utf8, getD_some, true_and] at *
  exact ⟨hmode, by rw [hdecode]; exact hoid.symm⟩

variable (hok : ∀ e ∈ entries, EntryOk e) (hnodup : (entries.map TreeEntry.name).Nodup)

include hok hnodup in
theorem key_injOn :
    Set.InjOn TreeEntry.key {e | e ∈ entries} := by
  have hslash (e : TreeEntry) (he : e ∈ entries) : (0x2f : UInt8) ∉ utf8 e.name := fun hmem =>
    (hok e he).legal.2.1 (mem_of_mem_utf8 hmem (by decide))
  have hends (a b : TreeEntry) (hb : b ∈ entries) : utf8 a.name ++ [0x2f] ≠ utf8 b.name := fun heq =>
    hslash b hb (heq ▸ mem_append_right _ (mem_singleton_self _))
  intro a ha b hb heq
  refine inj_on_of_nodup_map hnodup ha hb ?_
  simp only [TreeEntry.key, treeKey] at heq
  split at heq
  · split at heq
    · exact utf8_injective (append_cancel_right heq)
    · exact absurd heq (hends a b hb)
  · split at heq
    · exact absurd heq.symm (hends b a ha)
    · exact utf8_injective heq

theorem checkRow_rowOf (h : EntryOk e) (hfresh : e.name ∉ names)
    (horder : ∀ last ∈ prev, last < e.key) : checkRow oid names prev (rowOf e) = .ok (e.name, e.key) := by
  obtain ⟨bs, hoid, hlength, hnull⟩ := h.id
  have hdecode : hexDecode e.oid = some bs := hoid ▸ hexDecode_hexEncode bs
  obtain ⟨hmode, htext⟩ := modeBytes_spec e.mode h.mode
  have hspecial : checkSpecial oid e.name e.mode = .ok () := checkSpecial_eq_ok.mpr h.special
  have hraw : ¬maxTreeEntryName < (utf8 e.name).length := Nat.not_lt.mpr h.length
  have hid : ¬∀ b ∈ bs, b = 0 := fun hall => by
    obtain ⟨b, hb, hne⟩ := hnull
    exact hne (hall b hb)
  have hlast : ¬∃ last ∈ prev, ¬last < treeKey (utf8 e.name) e.mode := fun ⟨last, hmem, hnot⟩ => hnot (horder last hmem)
  have hlegal : ¬(e.name = "" ∨ '/' ∈ e.name.toList ∨ '\\' ∈ e.name.toList ∨ isDotGitLike e.name = true) := by
    simpa using h.legal
  simp only [checkRow, rowOf, hmode, htext, hdecode, getD_some, fromUtf8_utf8]
  refine refuseIf_bind_eq_ok.mpr
    ⟨by simp, refuseIf_bind_eq_ok.mpr ⟨not_not.mpr h.mode, refuseIf_bind_eq_ok.mpr ⟨by simp,
    refuseIf_bind_eq_ok.mpr ⟨hid, refuseIf_bind_eq_ok.mpr ⟨hraw, bind_eq_ok.mpr ⟨e.name, rfl, ?_⟩⟩⟩⟩⟩⟩
  refine refuseIf_bind_eq_ok.mpr ⟨hlegal, bind_eq_ok.mpr ⟨(), hspecial, refuseIf_bind_eq_ok.mpr ⟨h.symlink,
    refuseIf_bind_eq_ok.mpr ⟨hfresh, refuseIf_bind_eq_ok.mpr ⟨hlast, rfl⟩⟩⟩⟩⟩

include hok hnodup in
theorem checkRows_rowOf (hfresh : ∀ e ∈ entries, e.name ∉ names)
    (hsorted : entries.Pairwise fun a b => a.key < b.key) (hprev : ∀ e ∈ entries, ∀ last ∈ prev, last < e.key) :
    checkRows oid names prev (entries.map rowOf) = .ok () := by
  induction entries generalizing names prev with
  | nil => rfl
  | cons e entries ih =>
    obtain ⟨hnew, hnodup⟩ := nodup_cons.mp hnodup
    obtain ⟨hbelow, hsorted⟩ := pairwise_cons.mp hsorted
    rw [map_cons, checkRows, checkRow_rowOf (hok e mem_cons_self) (hfresh e mem_cons_self)
      (hprev e mem_cons_self)]
    refine ih (fun x hx => hok x (mem_cons_of_mem _ hx)) hnodup (fun x hx hmem => ?_) hsorted fun x hx last hlast => ?_
    · rcases mem_cons.mp hmem with heq | hmem
      · exact hnew (heq ▸ mem_map_of_mem hx)
      · exact hfresh x (mem_cons_of_mem _ hx) hmem
    · obtain rfl := mem_some_iff.mp hlast
      exact hbelow x hx

include hok hnodup in
theorem checkTree_serializeTree (oid : String) : ∃ bytes, serializeTree entries = some bytes ∧
    checkTree oid bytes = .ok () ∧
      parseTree bytes = sortByKey TreeEntry.key entries := by
  have hmem {e : TreeEntry} (he : e ∈ sortByKey TreeEntry.key entries) : e ∈ entries := (mem_sortByKey _).mp he
  have hok' (e : TreeEntry) (he : e ∈ sortByKey TreeEntry.key entries) : EntryOk e := hok e (hmem he)
  have hperm := perm_sortByKey TreeEntry.key entries
  obtain ⟨parts, hparts⟩ : ∃ parts, (sortByKey TreeEntry.key entries).mapM entryBytes = some parts := by
    refine ⟨(sortByKey TreeEntry.key entries).map fun e => (entryBytes e).getD [], mapM_eq_some_map fun e he => ?_⟩
    obtain ⟨bs, hoid, -⟩ := (hok' e he).id
    rw [entryBytes, hoid, hexDecode_hexEncode]
    rfl
  have hrows : treeRows parts.flatten = (sortByKey TreeEntry.key entries).map rowOf :=
    treeRowsFrom_flatten (fun e he => (hok' e he).framed) hparts (Nat.le_refl _)
  have hnodup' : ((sortByKey TreeEntry.key entries).map TreeEntry.name).Nodup := (hperm.map _).nodup_iff.mpr hnodup
  have hsorted : (sortByKey TreeEntry.key entries).Pairwise fun a b => a.key < b.key := by
    have hkeys : ((sortByKey TreeEntry.key entries).map TreeEntry.key).Nodup :=
      List.Nodup.map_on (fun a ha b hb heq => key_injOn hok' hnodup' ha hb heq) hnodup'.of_map
    exact ((pairwise_sortByKey TreeEntry.key entries).and (pairwise_map.mp hkeys)).imp fun h => lt_of_le_of_ne h.1 h.2
  refine ⟨parts.flatten, by rw [serializeTree, hparts]; rfl, ?_, ?_⟩
  · rw [checkTree, hrows]
    exact checkRows_rowOf hok' hnodup' (by simp) hsorted (by simp)
  · rw [parseTree, hrows, List.map_map]
    exact (map_congr_left fun e he => entry_rowOf (hok' e he).framed (modeBytes_spec _ (hok' e he).mode).1).trans
      (map_id _)

end DashForge.Git
