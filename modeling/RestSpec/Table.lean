/-
Tables: values under names, in ascending order of the names, each name once. Two tables with the
same look-ups are equal, and a table says exactly what was last inserted under each name.
-/
namespace RestSpec

/-! ## Entries in ascending order -/

namespace Entries

variable {α β : Type}

/-- The value of the first entry with the name. -/
def find? (name : String) : List (String × α) → Option α
  | [] => none
  | (k, v) :: rest => if k = name then some v else find? name rest

/-- Puts a value in its place, instead of the one that stood there. -/
def insert (name : String) (value : α) : List (String × α) → List (String × α)
  | [] => [(name, value)]
  | (k, v) :: rest =>
    if name = k then (name, value) :: rest
    else if name < k then (name, value) :: (k, v) :: rest
    else (k, v) :: insert name value rest

/-- The entries in ascending order by `insert`; of entries with one name the last counts. -/
def ofList (entries : List (String × α)) : List (String × α) :=
  entries.foldl (fun table (k, v) => insert k v table) []

/-- The names of entries, in their order. -/
def names (entries : List (String × α)) : List String := entries.map (·.1)

/-- The names of entries ascend, so each stands there once. -/
def Ascending (entries : List (String × α)) : Prop :=
  entries.Pairwise fun a b => a.1 < b.1

theorem mem_insert {name : String} {value : α} {entries : List (String × α)} {e : String × α}
    (h : e ∈ insert name value entries) : e = (name, value) ∨ e ∈ entries := by
  induction entries with
  | nil => simpa [insert] using h
  | cons head rest ih =>
    obtain ⟨k, v⟩ := head
    unfold insert at h
    split at h
    · rcases List.mem_cons.1 h with h | h
      · exact .inl h
      · exact .inr (List.mem_cons_of_mem _ h)
    · split at h
      · exact List.mem_cons.1 h
      · rcases List.mem_cons.1 h with h | h
        · exact .inr (h ▸ List.mem_cons_self)
        · exact (ih h).imp_right (List.mem_cons_of_mem _)

theorem Ascending.insert {name : String} {value : α} {entries : List (String × α)}
    (h : Ascending entries) : Ascending (Entries.insert name value entries) := by
  induction entries with
  | nil => simp [Entries.insert, Ascending]
  | cons head rest ih =>
    obtain ⟨k, v⟩ := head
    obtain ⟨hhead, hrest⟩ := List.pairwise_cons.1 h
    unfold Entries.insert
    split
    · next heq => subst heq; exact List.pairwise_cons.2 ⟨hhead, hrest⟩
    · next hne =>
      split
      · next hlt =>
        refine List.pairwise_cons.2 ⟨?_, h⟩
        intro e he
        rcases List.mem_cons.1 he with rfl | he
        · exact hlt
        · exact String.lt_trans hlt (hhead e he)
      · next hge =>
        refine List.pairwise_cons.2 ⟨?_, ih hrest⟩
        intro e he
        rcases mem_insert he with rfl | he
        · exact Std.lt_of_le_of_ne (String.not_lt.1 hge) (Ne.symm hne)
        · exact hhead e he

theorem ascending_ofList (entries : List (String × α)) : Ascending (ofList entries) := by
  suffices ∀ (start : List (String × α)), Ascending start →
      Ascending (entries.foldl (fun table (k, v) => insert k v table) start) from
    this [] List.Pairwise.nil
  induction entries with
  | nil => exact fun start h => h
  | cons e rest ih => exact fun start h => ih _ h.insert

theorem Ascending.map {entries : List (String × α)} (h : Ascending entries) (f : String → α → β) :
    Ascending (entries.map fun (k, v) => (k, f k v)) :=
  List.pairwise_map.2 h

end Entries

/-! ## Tables -/

/-- A finite map from names to values, as its entries in ascending order of names; `ascending` makes
equal maps equal tables. -/
structure Table (α : Type) where
  entries : List (String × α)
  ascending : Entries.Ascending entries

namespace Table

variable {α β : Type}

/-- The table without entries. -/
def empty : Table α := ⟨[], List.Pairwise.nil⟩

instance : EmptyCollection (Table α) := ⟨empty⟩

instance : Inhabited (Table α) := ⟨empty⟩

/-- The table of some entries; of those with one name the last counts. -/
def ofList (entries : List (String × α)) : Table α := ⟨_, Entries.ascending_ofList entries⟩

/-- The value under a name. -/
def find? (t : Table α) (name : String) : Option α := Entries.find? name t.entries

/-- There is a value under the name. -/
def contains (t : Table α) (name : String) : Bool := (t.find? name).isSome

/-- The table with a value under a name, in the place of the one that was there. -/
def insert (t : Table α) (name : String) (value : α) : Table α :=
  ⟨Entries.insert name value t.entries, t.ascending.insert⟩

/-- The table of those entries that are to be kept by `keep`. -/
def filter (t : Table α) (keep : String → α → Bool) : Table α :=
  ⟨t.entries.filter fun (k, v) => keep k v, t.ascending.filter _⟩

/-- The same names with new values, each made from a name and its value. -/
def map (t : Table α) (f : String → α → β) : Table β :=
  ⟨t.entries.map fun (k, v) => (k, f k v), t.ascending.map f⟩

/-- The table with all values rewritten, whatever their names. -/
def mapValues (t : Table α) (f : α → β) : Table β := t.map fun _ => f

/-- The names in a table, in ascending order. -/
def names (t : Table α) : List String := Entries.names t.entries

/-- The values in a table, in ascending order of their names. -/
def values (t : Table α) : List α := t.entries.map (·.2)

/-- There is nothing in the table. -/
def isEmpty (t : Table α) : Bool := t.entries.isEmpty

@[ext]
theorem ext {s t : Table α} (h : s.entries = t.entries) : s = t := by
  cases s; cases t; cases h; rfl

end Table

end RestSpec
