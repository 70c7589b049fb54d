namespace ApiCatalog

-- A finite map from names, kept in ascending order of name. Order is by code
-- point, and every map with the same bindings is the same value.
structure NameMap (α : Type) where
  entries : List (String × α)
  sorted : entries.Pairwise (fun a b => a.1 < b.1)
  deriving DecidableEq

namespace NameMap

variable {α β : Type}

-- Give `name` the value `f` makes of its old one, in its place in the order.
def upsertEntry (name : String) (f : Option α → α) : List (String × α) → List (String × α)
  | [] => [(name, f none)]
  | (key, value) :: rest =>
      if name < key then
        (name, f none) :: (key, value) :: rest
      else if name = key then
        (key, f (some value)) :: rest
      else
        (key, value) :: upsertEntry name f rest

theorem fst_mem_upsertEntry {name : String} {f : Option α → α} {entries : List (String × α)}
    {e : String × α} (h : e ∈ upsertEntry name f entries) :
    e.1 = name ∨ ∃ e' ∈ entries, e'.1 = e.1 := by
  induction entries with
  | nil => simp_all [upsertEntry]
  | cons head rest ih =>
      obtain ⟨key, value⟩ := head
      rw [upsertEntry] at h
      split at h
      · rcases List.mem_cons.1 h with rfl | h
        · exact .inl rfl
        · exact .inr ⟨e, h, rfl⟩
      · split at h
        · rename_i heq
          rcases List.mem_cons.1 h with rfl | h
          · exact .inl heq.symm
          · exact .inr ⟨e, List.mem_cons_of_mem _ h, rfl⟩
        · rcases List.mem_cons.1 h with rfl | h
          · exact .inr ⟨_, List.mem_cons_self, rfl⟩
          · rcases ih h with h | ⟨e', he', heq⟩
            · exact .inl h
            · exact .inr ⟨e', List.mem_cons_of_mem _ he', heq⟩

theorem pairwise_upsertEntry (name : String) (f : Option α → α) {entries : List (String × α)}
    (h : entries.Pairwise (fun a b => a.1 < b.1)) :
    (upsertEntry name f entries).Pairwise (fun a b => a.1 < b.1) := by
  induction entries with
  | nil => simp [upsertEntry]
  | cons head rest ih =>
      obtain ⟨key, value⟩ := head
      have hrest := List.pairwise_cons.1 h
      rw [upsertEntry]
      split
      · rename_i hlt
        refine List.pairwise_cons.2 ⟨fun e he => ?_, h⟩
        rcases List.mem_cons.1 he with rfl | he
        · exact hlt
        · exact String.lt_trans hlt (hrest.1 e he)
      · split
        · exact List.pairwise_cons.2 ⟨fun e he => hrest.1 e he, hrest.2⟩
        · rename_i hnlt hne
          refine List.pairwise_cons.2 ⟨fun e he => ?_, ih hrest.2⟩
          rcases fst_mem_upsertEntry he with heq | ⟨e', he', heq⟩
          · have hkey : key < name := by
              rcases Std.Trichotomous.rel_or_eq_or_rel_swap (r := (· < · : String → String → Prop))
                (a := name) (b := key) with h | h | h
              · exact absurd h hnlt
              · exact absurd h hne
              · exact h
            simpa [heq] using hkey
          · have := hrest.1 e' he'
            simpa [heq] using this

def empty : NameMap α := ⟨[], .nil⟩

instance : EmptyCollection (NameMap α) := ⟨empty⟩

instance : Inhabited (NameMap α) := ⟨empty⟩

def upsert (m : NameMap α) (name : String) (f : Option α → α) : NameMap α :=
  ⟨upsertEntry name f m.entries, pairwise_upsertEntry name f m.sorted⟩

def insert (m : NameMap α) (name : String) (value : α) : NameMap α :=
  m.upsert name fun _ => value

def get? (m : NameMap α) (name : String) : Option α := m.entries.lookup name

def keys (m : NameMap α) : List String := m.entries.map (·.1)

def values (m : NameMap α) : List α := m.entries.map (·.2)

def size (m : NameMap α) : Nat := m.entries.length

def isEmpty (m : NameMap α) : Bool := m.entries.isEmpty

-- Later bindings of a name replace earlier ones.
def ofList (bindings : List (String × α)) : NameMap α :=
  bindings.foldl (fun m (name, value) => m.insert name value) ∅

end NameMap

end ApiCatalog
