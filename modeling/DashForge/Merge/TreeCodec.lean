import DashForge.Merge.TreeBytes

/-!
# The codec of trees is canonical

A tree that passes the checks is what `serializeTree` writes for its entries, so its entries determine its bytes and
with them its id. Entries whose tree passes the checks are read back in git's order exactly when their bytes can be
told apart: an id in capitals is read back in small letters, and a NUL ends a name early.
-/

namespace DashForge.Git

open List Option

variable {oid : String} {bytes text : List UInt8} {e : TreeEntry} {entries : List TreeEntry} {names : List String}
  {prev : Option (List UInt8)} {rows : List TreeRow}

/-! ### Modes -/

theorem utf8EncodeChar_digitChar : ∀ d < 8, String.utf8EncodeChar (Nat.digitChar d) = [UInt8.ofNat (0x30 + d)] := by
  decide

theorem utf8_ofList_concat (cs : List Char) (c : Char) :
    utf8 (String.ofList (cs ++ [c])) = utf8 (String.ofList cs) ++ String.utf8EncodeChar c := by
  simp [utf8_eq_flatMap]

/-- The digit that is added last. -/
theorem modeBytes_add {n d : ℕ} (hn : 0 < n) (hd : d < 8) :
    modeBytes (n * 8 + d) = modeBytes n ++ [UInt8.ofNat (0x30 + d)] := by
  rw [modeBytes, Nat.toDigits_of_base_le (by decide) (by omega), utf8_ofList_concat, modeBytes,
    show (n * 8 + d) / 8 = n by omega, show (n * 8 + d) % 8 = d by omega, utf8EncodeChar_digitChar d hd]

theorem modeBytes_of_lt {d : ℕ} (hd : d < 8) : modeBytes d = [UInt8.ofNat (0x30 + d)] := by
  rw [modeBytes, Nat.toDigits_of_lt_base hd, ← nil_append [_], utf8_ofList_concat, utf8EncodeChar_digitChar d hd]
  rfl

/-- A mode without leading zeros is written as it was read. -/
theorem modeBytes_parseMode (h : isModeText text = true) : modeBytes (parseMode text) = text := by
  rw [isModeText, Bool.and_eq_true, List.all_eq_true] at h
  obtain ⟨hhead, hall⟩ := h
  rw [parseMode, takeWhile_eq_self_iff.mpr hall]
  have hdigit {b : UInt8} (hb : (0x30 ≤ b && b ≤ 0x37) = true) :
      b.toNat - 0x30 < 8 ∧ UInt8.ofNat (0x30 + (b.toNat - 0x30)) = b := by
    rw [Bool.and_eq_true, decide_eq_true_eq, decide_eq_true_eq, UInt8.le_iff_toNat_le, UInt8.le_iff_toNat_le] at hb
    have hb' : 0x30 ≤ b.toNat ∧ b.toNat ≤ 0x37 := hb
    refine ⟨by omega, ?_⟩
    rw [Nat.add_sub_cancel' hb'.1, UInt8.ofNat_toNat]
  suffices hpos : 0 < text.foldl (fun n b => n * 8 + (b.toNat - 0x30)) 0 ∧
      modeBytes (text.foldl (fun n b => n * 8 + (b.toNat - 0x30)) 0) = text from hpos.2
  induction text using reverseRecOn with
  | nil => cases hhead
  | append_singleton text b ih =>
    obtain ⟨hlt, hb⟩ := hdigit (hall b (by simp))
    rw [foldl_concat]
    rcases eq_or_ne text [] with rfl | hne
    · rw [foldl_nil, zero_mul, zero_add, modeBytes_of_lt hlt, hb]
      rw [nil_append, head?_cons, any_some, Bool.and_eq_true, decide_eq_true_eq,
        UInt8.le_iff_toNat_le] at hhead
      have hhead' : 0x31 ≤ b.toNat := hhead.1
      exact ⟨by omega, rfl⟩
    · rw [head?_append_of_ne_nil _ hne] at hhead
      obtain ⟨hpos, htext⟩ := ih hhead fun x hx => hall x (mem_append_left _ hx)
      rw [modeBytes_add hpos hlt, htext, hb]
      exact ⟨by omega, rfl⟩

theorem parseMode_modeBytes {mode : ℕ} (h : isModeText (modeBytes mode) = true) :
    parseMode (modeBytes mode) = mode := by
  have hdigits : Nat.toDigits 8 (parseMode (modeBytes mode)) = Nat.toDigits 8 mode :=
    String.ofList_injective (utf8_injective (modeBytes_parseMode h))
  have hvalue (n : ℕ) : Nat.ofDigitChars 8 (Nat.toDigits 8 n) 0 = n := Nat.ofDigitChars_toDigits (by decide) (by decide)
  rw [← hvalue (parseMode _), hdigits, hvalue]

/-! ### Reading and writing -/

theorem eq_takeWhile_append_cons {a : UInt8} (h : (bytes.takeWhile (· ≠ a)).length < bytes.length) :
    bytes = bytes.takeWhile (· ≠ a) ++ a :: bytes.drop ((bytes.takeWhile (· ≠ a)).length + 1) := by
  induction bytes with
  | nil => cases h
  | cons b bytes ih =>
    by_cases hb : b = a
    · simp [hb]
    · rw [takeWhile_cons_of_pos (by simpa using hb)] at h ⊢
      exact congrArg (b :: ·) (ih (Nat.lt_of_succ_lt_succ h))

theorem takeRow_eq (h : (takeRow bytes).1.whole = true) :
    bytes = (takeRow bytes).1.modeText ++ 0x20 :: ((takeRow bytes).1.raw ++ 0 :: (takeRow bytes).1.oid) ++
      (takeRow bytes).2 := by
  simp only [takeRow, decide_eq_true_eq] at h ⊢
  have hlength : (bytes.takeWhile (· ≠ 0x20)).length < bytes.length := by
    simp only [length_drop] at h
    omega
  have hmode := eq_takeWhile_append_cons hlength
  generalize bytes.drop ((bytes.takeWhile (· ≠ 0x20)).length + 1) = rest at h hmode ⊢
  rw [length_drop] at h
  have hname : rest = _ := eq_takeWhile_append_cons (a := 0) (by omega)
  have htail : rest.drop (rest.takeWhile (· ≠ 0)).length = 0 :: rest.drop ((rest.takeWhile (· ≠ 0)).length + 1) := by
    have hdrop := congrArg (List.drop (rest.takeWhile (· ≠ 0)).length) hname
    rwa [drop_left] at hdrop
  rw [htail, drop_succ_cons, drop_zero, drop_succ_cons, append_assoc, cons_append,
    append_assoc, cons_append, take_append_drop, ← hname, ← hmode]

theorem entryBytes_entry {row : TreeRow} {name : String} {key : List UInt8} (h : RowOk names prev row name key) :
    entryBytes row.entry = some (row.modeText ++ 0x20 :: (row.raw ++ 0 :: row.oid)) := by
  have hname : utf8 row.entry.name = row.raw := by rw [h.entry_name, utf8_of_fromUtf8 h.decodes]
  have hmode : modeBytes row.entry.mode = row.modeText := modeBytes_parseMode h.digits
  rw [entryBytes, hname, hmode]
  exact congrArg _ (hexDecode_hexEncode row.oid)

/-- The rows that pass the checks are the bytes, one after the other. -/
theorem mapM_entryBytes_rows {n : ℕ} (hn : bytes.length ≤ n)
    (h : checkRows oid names prev (treeRowsFrom n bytes) = .ok ()) : ∃ parts,
        ((treeRowsFrom n bytes).map TreeRow.entry).mapM entryBytes = some parts ∧ parts.flatten = bytes := by
  induction n generalizing bytes names prev with
  | zero =>
    obtain rfl := length_eq_zero_iff.mp (Nat.le_zero.mp hn)
    exact ⟨[], rfl, rfl⟩
  | succ n ih =>
    rcases eq_or_ne bytes [] with rfl | hne
    · exact ⟨[], rfl, rfl⟩
    · rw [treeRowsFrom] at h ⊢
      · obtain ⟨name, key, hok, hrest⟩ := checkRows_cons h
        have hrow := takeRow_eq hok.whole
        have hlength := congrArg List.length hrow
        simp only [length_append, length_cons] at hlength
        obtain ⟨parts, hparts, hbytes⟩ := ih (by omega) hrest
        have hentry := entryBytes_entry hok
        generalize (takeRow bytes).1.modeText ++
          0x20 :: ((takeRow bytes).1.raw ++ 0 :: (takeRow bytes).1.oid) = row at *
        refine ⟨row :: parts, ?_, ?_⟩
        · rw [map_cons, mapM_cons, hentry, hparts]
          rfl
        · rw [flatten_cons, hbytes, ← hrow]
      all_goals exact hne

theorem pairwise_of_checkRows (h : checkRows oid names prev rows = .ok ()) :
    ((rows.map TreeRow.entry).Pairwise fun a b => a.key < b.key) ∧
      ∀ e ∈ rows.map TreeRow.entry, ∀ last ∈ prev, last < e.key := by
  induction rows generalizing names prev with
  | nil => simp
  | cons row rows ih =>
    obtain ⟨name, key, hok, hrest⟩ := checkRows_cons h
    obtain ⟨hsorted, hbelow⟩ := ih hrest
    have hkey : row.entry.key = key := by
      rw [hok.key_eq, TreeEntry.key, hok.entry_name, utf8_of_fromUtf8 hok.decodes]
      rfl
    simp only [mem_some_iff, forall_eq', ← hkey] at hbelow
    refine ⟨pairwise_cons.mpr ⟨hbelow, hsorted⟩, forall_mem_cons.mpr ⟨hkey ▸ hok.order, ?_⟩⟩
    intro e he last hlast
    exact (hkey ▸ hok.order last hlast).trans (hbelow e he)

/-- A tree that passes the checks is written again as it was. -/
theorem serializeTree_parseTree (h : checkTree oid bytes = .ok ()) : serializeTree (parseTree bytes) = some bytes := by
  obtain ⟨parts, hparts, hbytes⟩ := mapM_entryBytes_rows (le_refl _) h
  have hsorted : (parseTree bytes).Pairwise fun a b => a.key ≤ b.key := (pairwise_of_checkRows h).1.imp le_of_lt
  rw [serializeTree, sortByKey, hsorted.insertionSort_eq, parseTree, treeRows, hparts, map_some, hbytes]

/-- Entries whose tree passes the checks are read back in git's order if their bytes can be told apart. -/
theorem parseTree_serializeTree (hframed : ∀ e ∈ entries, Framed e) (hbytes : serializeTree entries = some bytes)
    (h : checkTree oid bytes = .ok ()) : parseTree bytes = sortByKey TreeEntry.key entries := by
  obtain ⟨parts, hparts, rfl⟩ := map_eq_some_iff.mp hbytes
  have hsorted : ∀ e ∈ sortByKey TreeEntry.key entries, Framed e := fun e he => hframed e ((mem_sortByKey _).mp he)
  have hrows : treeRows parts.flatten = (sortByKey TreeEntry.key entries).map rowOf :=
    treeRowsFrom_flatten hsorted hparts (le_refl _)
  rw [checkTree, hrows] at h
  rw [parseTree, hrows, List.map_map]
  refine (map_congr_left fun e he => ?_).trans (List.map_id _)
  obtain ⟨names, prev, name, key, hok⟩ := rowOk_of_mem h (mem_map_of_mem he)
  exact entry_rowOf (hsorted e he) (parseMode_modeBytes hok.digits)

/-- **The codec of trees is canonical.** A tree that passes the checks is what `serializeTree` writes for its entries,
which are in git's order and share no name, so it is the only one with these entries. Entries whose tree passes the
checks are read back in git's order exactly when each has an id of 40 small digits and a name without a NUL. -/
theorem treeCodec_canonical (oid : String) :
    (∀ bytes, checkTree oid bytes = .ok () → serializeTree (parseTree bytes) = some bytes ∧
      ((parseTree bytes).map TreeEntry.name).Nodup ∧
      (∀ e ∈ parseTree bytes, e.name ≠ "" ∧ '/' ∉ e.name.toList ∧ '\\' ∉ e.name.toList) ∧
      (parseTree bytes).Pairwise fun a b => a.key < b.key) ∧
    (∀ entries bytes, (entries.map TreeEntry.name).Nodup → serializeTree entries = some bytes →
      checkTree oid bytes = .ok () → (parseTree bytes = sortByKey TreeEntry.key entries ↔ ∀ e ∈ entries, Framed e)) ∧
    ∀ bytes oid' bytes', checkTree oid bytes = .ok () → checkTree oid' bytes' = .ok () →
      parseTree bytes = parseTree bytes' → bytes = bytes' := by
  refine ⟨fun bytes h => ⟨serializeTree_parseTree h, nodup_of_checkTree h, fun e he => ?_, (pairwise_of_checkRows h).1⟩,
    fun entries bytes _ hbytes h => ⟨fun heq e he => ?_, fun hframed => parseTree_serializeTree hframed hbytes h⟩,
    fun bytes oid' bytes' h h' heq => ?_⟩
  · obtain ⟨hempty, hslash, hback, -⟩ := (entryOk_of_mem h he).legal
    exact ⟨hempty, hslash, hback⟩
  · exact (entryOk_of_mem h (heq ▸ (mem_sortByKey _).mpr he)).framed
  · exact Option.some.inj ((serializeTree_parseTree h).symm.trans (heq ▸ serializeTree_parseTree h'))

/-- A folder and a file that starts as it does: the folder is the later one, as if it ended in a slash. -/
theorem treeCodec_canonical_sample : ∃ bytes,
    serializeTree [⟨modeTree, "a", hexEncode (replicate 20 1)⟩, ⟨modeFile, "a.b", hexEncode (replicate 20 2)⟩] =
      some bytes ∧ checkTree "" bytes = .ok () ∧ serializeTree (parseTree bytes) = some bytes ∧
    (parseTree bytes).map TreeEntry.name = ["a.b", "a"] := by
  have hok : ∀ e ∈ [(⟨modeTree, "a", hexEncode (replicate 20 1)⟩ : TreeEntry),
      ⟨modeFile, "a.b", hexEncode (replicate 20 2)⟩], EntryOk e := by
    simp only [forall_mem_cons, not_mem_nil, false_imp_iff, implies_true, and_true]
    exact ⟨⟨by decide, by decide +kernel,
      ⟨_, rfl, rfl, by decide⟩, by decide +kernel, by decide +kernel, by decide +kernel,
      by decide +kernel⟩, ⟨by decide, by decide +kernel, ⟨_, rfl, rfl, by decide⟩, by decide +kernel, by decide +kernel,
      by decide +kernel, by decide +kernel⟩⟩
  obtain ⟨bytes, hbytes, hcheck, -⟩ := checkTree_serializeTree hok (by decide) ""
  obtain ⟨hwritten, hread, -⟩ := treeCodec_canonical ""
  have hparsed := (hread _ bytes (by decide) hbytes hcheck).mpr fun e he => (hok e he).framed
  exact ⟨bytes, hbytes, hcheck, (hwritten bytes hcheck).1, hparsed ▸ by decide +kernel⟩

/-- An id in capitals is read back in small letters. -/
theorem parseTree_lowers_id : ∃ entries bytes, (entries.map TreeEntry.name).Nodup ∧ serializeTree entries = some bytes ∧
    checkTree "" bytes = .ok () ∧ parseTree bytes ≠ sortByKey TreeEntry.key entries := by
  have hok : ∀ e ∈ [(⟨modeFile, "a", hexEncode (replicate 20 0xaa)⟩ : TreeEntry)], EntryOk e := by
    simp only [mem_singleton, forall_eq]
    exact ⟨by decide, by decide +kernel,
      ⟨_, rfl, rfl, by decide⟩, by decide +kernel, by decide +kernel, by decide +kernel,
      by decide +kernel⟩
  obtain ⟨bytes, hbytes, hcheck, hread⟩ := checkTree_serializeTree hok (by decide) ""
  refine ⟨[⟨modeFile, "a", String.ofList (replicate 40 'A')⟩], bytes, by decide, hbytes ▸ ?_, hcheck, hread ▸ ?_⟩
  all_goals decide +kernel

end DashForge.Git
