import DashForge.Data.JsonText

/-!
# Written JSON

A compact text together with the value it is read as (`Printed`), put together as a serializer walks a structure: numbers,
strings, arrays, and structures whose members may be left out. Whatever the order of a structure's members, a parsed
object has each under its key (`lookup_struct`), and leaving a member out never makes the text longer
(`size_struct_le`).
-/

namespace DashForge.Json

open List

/-- A text that prints a value at nesting `d`. -/
structure Printed (d : ℕ) where
  text : List Char
  value : JsonValue
  prints : Prints d text value

theorem prints_members {d : ℕ} {texts : List (String × List Char)} {members : List (String × JsonValue)}
    (h : List.Forall₂ (fun x y => x.1 = y.1 ∧ Prints d x.2 y.2) texts members) :
    Prints (d + 1) (bracket '{' '}' (texts.map fun x => memberText x.1 x.2)) (.object (.ofList members)) := by
  intro rest _
  by_cases hnil : members = []
  · subst hnil
    obtain rfl := forall₂_nil_right_iff.mp h
    exact .emptyObject d (skipWs_cons (by decide) rest)
  · have hread := Reads.object (reads_members h hnil rest)
    simpa [bracket] using hread

namespace Printed

variable {d : ℕ}

def null : Printed d := ⟨"null".toList, .null, prints_null d⟩

def number (n : UInt64) : Printed d := ⟨Nat.toDigits 10 n.toNat, .nat n, prints_nat d n⟩

def string (s : String) : Printed d := ⟨quote s, .string s, prints_quote d s⟩

theorem prints_items (items : List (Printed d)) :
    Prints (d + 1) (bracket '[' ']' (items.map text)) (.array (items.map value)) := by
  refine prints_array ?_
  rw [forall₂_map_left_iff, forall₂_map_right_iff, forall₂_same]
  exact fun p _ => p.prints

def array (items : List (Printed d)) : Printed (d + 1) := ⟨_, _, prints_items items⟩

/-- The text of an object's members. -/
def membersText (members : List (String × Printed d)) : List (List Char) :=
  members.map fun x => memberText x.1 x.2.text

theorem prints_membersText (members : List (String × Printed d)) :
    Prints (d + 1) (bracket '{' '}' (membersText members))
      (.object (.ofList (members.map fun x => (x.1, x.2.value)))) := by
  have h := @prints_members d (members.map fun x => (x.1, x.2.text)) (members.map fun x => (x.1, x.2.value)) ?_
  · rwa [map_map] at h
  · rw [forall₂_map_left_iff, forall₂_map_right_iff, forall₂_same]
    exact fun x _ => ⟨rfl, x.2.prints⟩

/-- The members that are not left out. -/
def present (members : List (String × Option (Printed d))) : List (String × Printed d) :=
  members.filterMap fun x => x.2.map fun p => (x.1, p)

/-- An object of the members that are not left out. -/
def struct (members : List (String × Option (Printed d))) : Printed (d + 1) :=
    ⟨_, _, prints_membersText (present members)⟩

theorem keys_present_sublist (members : List (String × Option (Printed d))) :
    List.Sublist ((present members).map Prod.fst) (members.map Prod.fst) := by
  induction members with
  | nil => exact .slnil
  | cons x members ih =>
    obtain ⟨key, o⟩ := x
    cases o with
    | none => exact ih.cons key
    | some p => exact ih.cons_cons key

theorem present_sublist (before after : List (String × Option (Printed d))) (key : String) (o : Option (Printed d)) :
    (present (before ++ (key, none) :: after)).Sublist (present (before ++ (key, o) :: after)) := by
  rw [present, present, filterMap_append, filterMap_append]
  refine List.Sublist.append_left ?_ _
  cases o with
  | none => exact List.Sublist.refl _
  | some p => exact List.Sublist.cons _ (List.Sublist.refl _)

variable {members : List (String × Option (Printed d))}

theorem mem_present {key : String} {p : Printed d} : (key, p) ∈ present members ↔ (key, some p) ∈ members := by
  simp only [present, mem_filterMap, Option.map_eq_some_iff, Prod.mk.injEq]
  constructor
  · rintro ⟨⟨key', o⟩, hmem, p', rfl, rfl, rfl⟩
    exact hmem
  · exact fun h => ⟨_, h, p, rfl, rfl, rfl⟩

/-- What the object of a structure has under a key, and which keys it has. -/
theorem exists_object_struct (h : (members.map Prod.fst).Nodup) :
    ∃ m, (struct members).value = .object m ∧ (∀ x ∈ members, m.lookup x.1 = x.2.map value) ∧
      ∀ key ∈ m.keys, ∃ p, (key, some p) ∈ members := by
  have hkeys : ((present members).map Prod.fst).Nodup := h.sublist (keys_present_sublist members)
  have hvalues : (((present members).map fun x => (x.1, x.2.value)).map Prod.fst).Nodup := by
    rw [map_map]
    exact hkeys
  refine ⟨_, rfl, ?_, fun key hkey => ?_⟩
  · rintro ⟨key, o⟩ hx
    refine Option.ext fun v => ?_
    rw [SortedMap.lookup_ofList hvalues, mem_map, Option.map_eq_some_iff]
    constructor
    · rintro ⟨⟨key', p⟩, hp, heq⟩
      obtain ⟨rfl, rfl⟩ := Prod.mk.inj heq
      have hmem := mem_present.mp hp
      -- The key stands once among the members.
      obtain rfl : some p = o := congrArg Prod.snd (inj_on_of_nodup_map h hmem hx rfl)
      exact ⟨p, rfl, rfl⟩
    · rintro ⟨p, rfl, rfl⟩
      exact ⟨(key, p), mem_present.mpr hx, rfl⟩
  · obtain ⟨v, hv⟩ := SortedMap.mem_keys_iff.mp hkey
    obtain ⟨⟨key', p⟩, hp, heq⟩ := mem_map.mp ((SortedMap.lookup_ofList hvalues).mp hv)
    obtain ⟨rfl, -⟩ := Prod.mk.inj heq
    exact ⟨p, mem_present.mp hp⟩

theorem exists_lookup_struct (h : (members.map Prod.fst).Nodup) :
    ∃ m, (struct members).value = .object m ∧ ∀ x ∈ members, m.lookup x.1 = x.2.map value := by
  obtain ⟨m, hm, hlookup, -⟩ := exists_object_struct h
  exact ⟨m, hm, hlookup⟩

/-! ### Texts -/

theorem text_null : (null : Printed d).text = "null".toList := rfl

theorem text_number (n : UInt64) : (number n : Printed d).text = Nat.toDigits 10 n.toNat := rfl

theorem text_string (s : String) : (string s : Printed d).text = quote s := rfl

theorem text_array (items : List (Printed d)) : (array items).text = bracket '[' ']' (items.map text) := rfl

theorem text_struct_none (key : String) (members : List (String × Option (Printed d))) :
    (struct ((key, none) :: members)).text = (struct members).text := rfl

theorem intercalate_comma (text : List Char) (texts : List (List Char)) :
    [','].intercalate (text :: texts) = text ++ texts.flatMap fun t => ',' :: t := by
  induction texts generalizing text with
  | nil => simp
  | cons t texts ih => rw [intercalate_cons_of_ne_nil (by simp), ih, flatMap_cons]; simp

/-- The text of a structure whose first member is not left out: a comma stands before each other that is there. -/
theorem text_struct (key : String) (p : Printed d) (members : List (String × Option (Printed d))) :
    (struct ((key, some p) :: members)).text = '{' :: memberText key p.text ++
      (members.flatMap fun x => x.2.elim [] fun p => ',' :: memberText x.1 p.text) ++ ['}'] := by
  have hrest : ((membersText (present members)).flatMap fun t => ',' :: t) =
      members.flatMap fun x => x.2.elim [] fun p => ',' :: memberText x.1 p.text := by
    induction members with
    | nil => rfl
    | cons x members ih =>
      obtain ⟨key', o⟩ := x
      cases o with
      | none => exact ih
      | some p' =>
        rw [flatMap_cons, ← ih]
        rfl
  rw [← hrest]
  change '{' :: [','].intercalate (memberText key p.text :: membersText (present members)) ++ ['}'] = _
  rw [intercalate_comma]
  rfl

/-! ### Sizes -/

theorem intercalate_sublist {α : Type*} (sep : List α) {l l' : List (List α)} (h : l.Sublist l') :
    (sep.intercalate l).Sublist (sep.intercalate l') := by
  induction h with
  | slnil => exact List.Sublist.refl _
  | @cons l l' a h ih =>
    by_cases hnil : l' = []
    · subst hnil
      obtain rfl := sublist_nil.mp h
      exact nil_sublist _
    · rw [intercalate_cons_of_ne_nil hnil]
      exact ih.trans (sublist_append_right _ _)
  | @cons_cons l l' a h ih =>
    by_cases hnil' : l' = []
    · subst hnil'
      obtain rfl := sublist_nil.mp h
      exact List.Sublist.refl _
    rw [intercalate_cons_of_ne_nil hnil']
    by_cases hnil : l = []
    · subst hnil
      rw [intercalate_singleton, append_assoc]
      exact sublist_append_left _ _
    · rw [intercalate_cons_of_ne_nil hnil]
      exact ih.append_left _

/-- How many bytes a written text has. -/
def size (p : Printed d) : ℕ := String.utf8Len p.text

theorem size_struct_le {members' : List (String × Option (Printed d))}
    (h : (present members).Sublist (present members')) : (struct members).size ≤ (struct members').size := by
  refine String.utf8Len_le_of_sublist ?_
  refine List.Sublist.cons_cons _ (List.Sublist.append_right ?_ _)
  exact intercalate_sublist _ (h.map _)

end Printed

end DashForge.Json
