import ApiCatalog.NameMap
import Mathlib.Algebra.GroupWithZero.Nat
import Mathlib.Data.String.Basic

namespace ApiCatalog.NameMap

variable {α : Type}

theorem lookup_cons_of_ne {name key : String} (hne : name ≠ key) (value : α)
    (rest : List (String × α)) : ((key, value) :: rest).lookup name = rest.lookup name := by
  have hbeq : (name == key) = false := beq_eq_false_iff_ne.2 hne
  simp only [List.lookup_cons, hbeq]

theorem lookup_eq_none_of_lt {name : String} {entries : List (String × α)}
    (h : ∀ e ∈ entries, name < e.1) : entries.lookup name = none := by
  rw [List.lookup_eq_none_iff]
  intro e he
  simpa using (h e he).ne

theorem lookup_cons_eq_none_of_lt {name key : String} (hlt : name < key) (value : α)
    {rest : List (String × α)} (hrest : ∀ e ∈ rest, key < e.1) :
    ((key, value) :: rest).lookup name = none := by
  apply lookup_eq_none_of_lt
  intro e he
  rcases List.mem_cons.1 he with rfl | he
  · exact hlt
  · exact hlt.trans (hrest e he)

theorem lookup_upsertEntry_self (name : String) (f : Option α → α) {entries : List (String × α)}
    (h : entries.Pairwise (fun a b => a.1 < b.1)) :
    (upsertEntry name f entries).lookup name = some (f (entries.lookup name)) := by
  induction entries with
  | nil => simp [upsertEntry]
  | cons head rest ih =>
      obtain ⟨key, value⟩ := head
      obtain ⟨hhead, hrest⟩ := List.pairwise_cons.1 h
      rw [upsertEntry]
      split
      · rename_i hlt
        rw [lookup_cons_eq_none_of_lt hlt value hhead, List.lookup_cons_self]
      · split
        · rename_i heq
          simp [heq]
        · rename_i hne
          rw [lookup_cons_of_ne hne, ih hrest, lookup_cons_of_ne hne]

theorem lookup_upsertEntry_of_ne {name other : String} (hne : other ≠ name)
    (f : Option α → α) (entries : List (String × α)) :
    (upsertEntry name f entries).lookup other = entries.lookup other := by
  induction entries with
  | nil => rw [upsertEntry, lookup_cons_of_ne hne]
  | cons head rest ih =>
      obtain ⟨key, value⟩ := head
      rw [upsertEntry]
      split
      · rw [lookup_cons_of_ne hne]
      · split
        · rename_i heq
          subst heq
          rw [lookup_cons_of_ne hne, lookup_cons_of_ne hne]
        · rw [List.lookup_cons, List.lookup_cons, ih]

theorem get?_upsert (m : NameMap α) (name : String) (f : Option α → α) (other : String) :
    (m.upsert name f).get? other =
      if other = name then some (f (m.get? name)) else m.get? other := by
  split
  · rename_i heq
    subst heq
    exact lookup_upsertEntry_self other f m.sorted
  · rename_i hne
    exact lookup_upsertEntry_of_ne hne f m.entries

@[simp] theorem get?_empty (name : String) : (∅ : NameMap α).get? name = none := rfl

theorem mem_keys_iff (m : NameMap α) (name : String) : name ∈ m.keys ↔ (m.get? name).isSome := by
  rw [Option.isSome_iff_ne_none, get?, Ne, List.lookup_eq_none_iff]
  simp [keys]

theorem get?_of_mem {m : NameMap α} {name : String} {value : α}
    (h : (name, value) ∈ m.entries) : m.get? name = some value := by
  have hsorted := m.sorted
  rw [get?]
  generalize m.entries = entries at h hsorted
  induction entries with
  | nil => exact absurd h List.not_mem_nil
  | cons head rest ih =>
      obtain ⟨hhead, hrest⟩ := List.pairwise_cons.1 hsorted
      rcases List.mem_cons.1 h with rfl | hmem
      · exact List.lookup_cons_self
      · have hlt : head.1 < name := hhead (name, value) hmem
        rw [lookup_cons_of_ne hlt.ne', ih hmem hrest]

theorem pairwise_keys (m : NameMap α) : m.keys.Pairwise (· < ·) := List.pairwise_map.2 m.sorted

theorem mem_keys_insert (m : NameMap α) (name : String) (value : α) (other : String) :
    other ∈ (m.insert name value).keys ↔ other = name ∨ other ∈ m.keys := by
  rw [mem_keys_iff, mem_keys_iff, insert, get?_upsert]
  split <;> simp_all

theorem mem_keys_foldl_insert (m : NameMap α) (bindings : List (String × α)) (name : String) :
    name ∈ (bindings.foldl (fun m (name, value) => m.insert name value) m).keys ↔
      name ∈ m.keys ∨ name ∈ bindings.map (·.1) := by
  induction bindings generalizing m with
  | nil => simp
  | cons head rest ih =>
      rw [List.foldl_cons, ih, mem_keys_insert, List.map_cons, List.mem_cons]
      tauto

theorem mem_keys_ofList (bindings : List (String × α)) (name : String) :
    name ∈ (ofList bindings).keys ↔ name ∈ bindings.map (·.1) := by
  have hempty : name ∉ (∅ : NameMap α).keys := by simp [mem_keys_iff]
  rw [ofList, mem_keys_foldl_insert]
  simp only [hempty, false_or]

-- A change that adds as much to any value adds as much to the whole.
theorem sum_values_upsert {weight : α → Nat} {f : Option α → α} {more : Nat}
    (h : ∀ old : Option α, weight (f old) = old.elim 0 weight + more) (m : NameMap α)
    (name : String) :
    ((m.upsert name f).values.map weight).sum = (m.values.map weight).sum + more := by
  obtain ⟨entries, sorted⟩ := m
  simp only [values, upsert]
  clear sorted
  induction entries with
  | nil =>
      have hnone := h none
      simpa [upsertEntry] using hnone
  | cons head rest ih =>
      obtain ⟨key, value⟩ := head
      rw [upsertEntry]
      split
      · have hnone := h none
        simp only [Option.elim_none] at hnone
        simp only [List.map_cons, List.sum_cons, hnone]
        omega
      · split
        · have hsome := h (some value)
          simp only [Option.elim_some] at hsome
          simp only [List.map_cons, List.sum_cons, hsome]
          omega
        · simp only [List.map_cons, List.sum_cons, ih]
          omega

-- Two lists in strict order with the same bindings begin alike, and go on alike.
theorem entries_eq_of_lookup {l r : List (String × α)} (hl : l.Pairwise (fun a b => a.1 < b.1))
    (hr : r.Pairwise (fun a b => a.1 < b.1)) (h : ∀ name, l.lookup name = r.lookup name) :
    l = r := by
  induction l generalizing r with
  | nil =>
      cases r with
      | nil => rfl
      | cons head rest =>
          obtain ⟨key, value⟩ := head
          simpa using h key
  | cons head rest ih =>
      obtain ⟨key, value⟩ := head
      obtain ⟨hhead, hrest⟩ := List.pairwise_cons.1 hl
      cases r with
      | nil => simpa using h key
      | cons head' rest' =>
          obtain ⟨key', value'⟩ := head'
          obtain ⟨hhead', hrest'⟩ := List.pairwise_cons.1 hr
          have hkey : key = key' := by
            -- the smaller of the two keys would be bound on one side only
            rcases lt_trichotomy key key' with hlt | heq | hgt
            · have hnone := lookup_cons_eq_none_of_lt hlt value' hhead'
              simpa [hnone] using h key
            · exact heq
            · have hnone := lookup_cons_eq_none_of_lt hgt value hhead
              simpa [hnone] using h key'
          subst hkey
          have hvalue : value = value' := by simpa using h key
          have htail : ∀ name, rest.lookup name = rest'.lookup name := by
            intro name
            by_cases hname : name = key
            · subst hname
              rw [lookup_eq_none_of_lt hhead, lookup_eq_none_of_lt hhead']
            · have hwhole := h name
              rwa [lookup_cons_of_ne hname, lookup_cons_of_ne hname] at hwhole
          rw [hvalue, ih hrest hrest' htail]

-- A map is its bindings.
theorem ext_get? {m n : NameMap α} (h : ∀ name, m.get? name = n.get? name) : m = n := by
  obtain ⟨l, hl⟩ := m
  obtain ⟨r, hr⟩ := n
  have heq : l = r := entries_eq_of_lookup hl hr h
  subst heq
  rfl

-- Writes to two names do not see each other.
theorem upsert_comm {a b : String} (hne : a ≠ b) (m : NameMap α) (f g : Option α → α) :
    (m.upsert a f).upsert b g = (m.upsert b g).upsert a f := by
  apply ext_get?
  intro name
  simp only [get?_upsert, if_neg hne, if_neg hne.symm]
  by_cases ha : name = a
  · have hb : name ≠ b := fun hb => hne (ha.symm.trans hb)
    simp only [ha, if_true, if_neg hne]
  · simp only [ha, if_false]

theorem upsert_upsert (m : NameMap α) (name : String) (f g : Option α → α) :
    (m.upsert name f).upsert name g = m.upsert name fun old => g (some (f old)) := by
  apply ext_get?
  intro other
  simp only [get?_upsert, if_true]
  by_cases hother : other = name
  · simp only [hother, if_true]
  · simp only [hother, if_false]

theorem upsertEntry_of_forall_lt {name : String} {entries : List (String × α)}
    (h : ∀ e ∈ entries, e.1 < name) (f : Option α → α) :
    upsertEntry name f entries = entries ++ [(name, f none)] := by
  induction entries with
  | nil => rfl
  | cons head rest ih =>
      obtain ⟨key, value⟩ := head
      have hlt : key < name := h (key, value) List.mem_cons_self
      have hrest := ih fun e he => h e (List.mem_cons_of_mem _ he)
      rw [upsertEntry, if_neg hlt.asymm, if_neg hlt.ne', hrest, List.cons_append]

theorem entries_foldl_insert {m : NameMap α} {bindings : List (String × α)}
    (h : (m.entries ++ bindings).Pairwise (fun a b => a.1 < b.1)) :
    (bindings.foldl (fun m (name, value) => m.insert name value) m).entries =
      m.entries ++ bindings := by
  induction bindings generalizing m with
  | nil => rw [List.foldl_nil, List.append_nil]
  | cons head rest ih =>
      obtain ⟨name, value⟩ := head
      have hlt : ∀ e ∈ m.entries, e.1 < name :=
        fun e he => (List.pairwise_append.1 h).2.2 e he (name, value) List.mem_cons_self
      have hinsert : (m.insert name value).entries = m.entries ++ [(name, value)] :=
        upsertEntry_of_forall_lt hlt fun _ => value
      have hrest : ((m.insert name value).entries ++ rest).Pairwise (fun a b => a.1 < b.1) := by
        rwa [hinsert, List.append_assoc, List.singleton_append]
      rw [List.foldl_cons, ih hrest, hinsert, List.append_assoc, List.singleton_append]

-- Bindings in the order of their names are a map as they stand.
theorem ofList_entries (m : NameMap α) : ofList m.entries = m := by
  have hentries : (ofList m.entries).entries = m.entries :=
    entries_foldl_insert (m := ∅) m.sorted
  generalize ofList m.entries = n at hentries
  obtain ⟨entries, sorted⟩ := n
  subst hentries
  rfl

end ApiCatalog.NameMap
