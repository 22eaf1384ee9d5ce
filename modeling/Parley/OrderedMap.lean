/-! Finite maps that remember the order in which their keys came in. Giving a key a new value keeps
its place. -/

namespace Parley

/-- A map as the list of its entries, oldest key first. -/
structure OrderedMap (α : Type) (β : Type) where
  entries : List (α × β)
  deriving Repr

namespace OrderedMap

variable {α β : Type} [DecidableEq α]

def empty : OrderedMap α β := ⟨[]⟩

instance : Inhabited (OrderedMap α β) := ⟨⟨[]⟩⟩

/-- The value of the first entry with a key. -/
def find (k : α) : List (α × β) → Option β
  | [] => none
  | (a, b) :: rest => if a = k then some b else find k rest

/-- The entries with the value at a key replaced, or with a new entry at the end. -/
def set (k : α) (v : β) : List (α × β) → List (α × β)
  | [] => [(k, v)]
  | (a, b) :: rest => if a = k then (a, v) :: rest else (a, b) :: set k v rest

def get? (m : OrderedMap α β) (k : α) : Option β := find k m.entries

def contains (m : OrderedMap α β) (k : α) : Bool := (m.get? k).isSome

/-- Gives a key a value: in its place if it has one already, at the end otherwise. -/
def put (m : OrderedMap α β) (k : α) (v : β) : OrderedMap α β := ⟨set k v m.entries⟩

def keys (m : OrderedMap α β) : List α := m.entries.map (·.1)

/-- The entries put one after another into an empty map. -/
def ofList (kvs : List (α × β)) : OrderedMap α β :=
  kvs.foldl (fun m kv => m.put kv.1 kv.2) empty

theorem find_set_self (k : α) (v : β) (l : List (α × β)) : find k (set k v l) = some v := by
  induction l with
  | nil => simp [set, find]
  | cons e rest ih =>
    obtain ⟨a, b⟩ := e
    by_cases ha : a = k <;> simp [set, find, ha, ih]

theorem find_set_of_ne {k k' : α} (hk : k' ≠ k) (v : β) (l : List (α × β)) :
    find k' (set k v l) = find k' l := by
  induction l with
  | nil => simp [set, find, Ne.symm hk]
  | cons e rest ih =>
    obtain ⟨a, b⟩ := e
    by_cases ha : a = k
    · subst ha; simp [set, find, Ne.symm hk]
    · simp [set, find, ha, ih]

@[simp] theorem get?_put_self (m : OrderedMap α β) (k : α) (v : β) :
    (m.put k v).get? k = some v :=
  find_set_self k v m.entries

theorem get?_put_of_ne (m : OrderedMap α β) {k k' : α} (hk : k' ≠ k) (v : β) :
    (m.put k v).get? k' = m.get? k' :=
  find_set_of_ne hk v m.entries

theorem keys_set (k : α) (v : β) (l : List (α × β)) :
    (set k v l).map (·.1) =
      if (find k l).isSome then l.map (·.1) else l.map (·.1) ++ [k] := by
  induction l with
  | nil => simp [set, find]
  | cons e rest ih =>
    obtain ⟨a, b⟩ := e
    by_cases ha : a = k
    · simp [set, find, ha]
    · by_cases hf : (find k rest).isSome <;> simp_all [set, find]

/-- A key that has a value keeps its place; a new key goes to the end. -/
theorem keys_put (m : OrderedMap α β) (k : α) (v : β) :
    (m.put k v).keys = if m.contains k then m.keys else m.keys ++ [k] :=
  keys_set k v m.entries

theorem contains_iff_mem_keys {m : OrderedMap α β} {k : α} : m.contains k = true ↔ k ∈ m.keys := by
  obtain ⟨l⟩ := m
  simp only [contains, get?, keys]
  induction l with
  | nil => simp [find]
  | cons e rest ih =>
      obtain ⟨a, b⟩ := e
      by_cases ha : a = k
      · simp [find, ha]
      · simp [find, ha, ih, Ne.symm ha]

end OrderedMap

end Parley
