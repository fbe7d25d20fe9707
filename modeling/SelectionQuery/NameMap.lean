/-! # Maps from names

A finite map from names, kept as entries in strictly increasing order of their names. The order
is by code point, so equal maps have equal entries whatever the order of insertion.
-/
namespace SelectionQuery

/-- Entries with strictly increasing names. -/
structure NameMap (β : Type) where
  entries : List (String × β)
  sorted : entries.Pairwise (fun a b => a.1 < b.1)

namespace NameMap
variable {β : Type}

def empty : NameMap β := ⟨[], .nil⟩

instance : Inhabited (NameMap β) := ⟨empty⟩

def get? (m : NameMap β) (name : String) : Option β := m.entries.lookup name

def contains (m : NameMap β) (name : String) : Bool := (m.get? name).isSome

def isEmpty (m : NameMap β) : Bool := m.entries.isEmpty

def values (m : NameMap β) : List β := m.entries.map (·.2)

/-- Places an entry among sorted ones and replaces an entry of the same name. -/
def place (name : String) (value : β) : List (String × β) → List (String × β)
  | [] => [(name, value)]
  | entry :: entries =>
    if name < entry.1 then (name, value) :: entry :: entries
    else if name = entry.1 then (name, value) :: entries
    else entry :: place name value entries

theorem mem_place {name : String} {value : β} {entry : String × β} {entries : List (String × β)}
    (h : entry ∈ place name value entries) : entry = (name, value) ∨ entry ∈ entries := by
  induction entries with
  | nil => simpa [place] using h
  | cons first rest ih =>
    rw [place] at h
    split at h
    · simpa using h
    · split at h
      · rcases List.mem_cons.mp h with h | h
        · exact .inl h
        · exact .inr (List.mem_cons_of_mem _ h)
      · rcases List.mem_cons.mp h with h | h
        · exact .inr (h ▸ List.mem_cons_self)
        · exact (ih h).imp_right (List.mem_cons_of_mem _)

theorem pairwise_place (name : String) (value : β) {entries : List (String × β)}
    (h : entries.Pairwise (fun a b => a.1 < b.1)) :
    (place name value entries).Pairwise (fun a b => a.1 < b.1) := by
  induction entries with
  | nil => simp [place]
  | cons first rest ih =>
    obtain ⟨hfirst, hrest⟩ := List.pairwise_cons.mp h
    rw [place]
    split
    next hlt =>
      refine List.pairwise_cons.mpr ⟨fun entry hmem => ?_, h⟩
      rcases List.mem_cons.mp hmem with rfl | hmem
      · exact hlt
      · exact String.lt_trans hlt (hfirst entry hmem)
    next hlt =>
      split
      next heq => exact List.pairwise_cons.mpr ⟨fun entry hmem => heq ▸ hfirst entry hmem, hrest⟩
      next hne =>
        have hgt : first.1 < name :=
          Decidable.byContradiction fun hn =>
            hne (String.le_antisymm (String.not_lt.mp hn) (String.not_lt.mp hlt))
        refine List.pairwise_cons.mpr ⟨fun entry hmem => ?_, ih hrest⟩
        rcases mem_place hmem with rfl | hmem
        · exact hgt
        · exact hfirst entry hmem

def insert (m : NameMap β) (name : String) (value : β) : NameMap β :=
  ⟨place name value m.entries, pairwise_place name value m.sorted⟩

def ofList (entries : List (String × β)) : NameMap β :=
  entries.foldl (fun m entry => m.insert entry.1 entry.2) empty

end NameMap
end SelectionQuery
