/-!
# Tables in order of entry

A table is a list of pairs with one pair for each key. `Table.put` replaces the entry of a key
where it stands, or adds it at the end.
-/

namespace DecisionModel.Table

variable {κ β : Type} [DecidableEq κ]

/-- Enters a value under a key. -/
def put (table : List (κ × β)) (k : κ) (x : β) : List (κ × β) :=
  if table.any (·.1 = k) then table.map fun e => if e.1 = k then (k, x) else e
  else table ++ [(k, x)]

/-- The value under a key. -/
def get? (table : List (κ × β)) (k : κ) : Option β := (table.find? (·.1 = k)).map (·.2)

/-- What stands under a key was entered under it. -/
theorem mem_of_get? {table : List (κ × β)} {k : κ} {x : β} (h : get? table k = some x) :
    (k, x) ∈ table := by
  obtain ⟨e, he, rfl⟩ := Option.map_eq_some_iff.mp h
  obtain rfl : e.1 = k := by simpa using List.find?_some he
  exact List.mem_of_find?_eq_some he

/-- What stands under a key after a value was entered. -/
theorem get?_put (table : List (κ × β)) (k u : κ) (x : β) :
    get? (put table k x) u = if u = k then some x else get? table u := by
  unfold get? put
  split
  · rename_i hany
    have hkey : ((fun e : κ × β => decide (e.1 = u)) ∘ fun e => if e.1 = k then (k, x) else e) =
        fun e => decide (e.1 = u) := by
      funext e
      by_cases he : e.1 = k <;> simp [he]
    rw [List.find?_map, hkey, Option.map_map]
    rcases hf : table.find? (·.1 = u) with _ | e
    · have hne : u ≠ k := by
        rintro rfl
        obtain ⟨e, he, hek⟩ := List.any_eq_true.mp hany
        exact List.find?_eq_none.mp hf e he hek
      rw [hf, if_neg hne]
      rfl
    · have he : e.1 = u := by simpa using List.find?_some hf
      rw [hf]
      by_cases huk : u = k <;> simp [he, huk]
  · rename_i hany
    rw [List.find?_append]
    split
    · rename_i huk
      subst huk
      rw [List.find?_eq_none.mpr fun e he hek => hany (List.any_eq_true.mpr ⟨e, he, hek⟩)]
      simp
    · rename_i huk
      simp [Ne.symm huk]

end DecisionModel.Table
