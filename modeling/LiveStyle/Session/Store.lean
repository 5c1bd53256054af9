import LiveStyle.Binding
import LiveStyle.Style

/-! # Stores

What a session holds, by name.  Storing under a name replaces what was there.
-/
namespace LiveStyle.Session

inductive Held where
  | style (style : Style)
  | binding (binding : Binding Style StyleValue)

/-- At most one entry has a given name; the newest stands first. -/
abbrev Store := List (String × Held)

namespace Store

def find? (store : Store) (id : String) : Option Held := store.lookup id

def erase (store : Store) (id : String) : Store := store.filter fun entry => entry.1 ≠ id

def put (store : Store) (id : String) (held : Held) : Store := (id, held) :: store.erase id

@[simp] theorem find?_put_self (store : Store) (id : String) (held : Held) :
    (store.put id held).find? id = some held := by
  simp [find?, put]

theorem find?_put_of_ne (store : Store) {id other : String} (held : Held) (h : other ≠ id) :
    (store.put id held).find? other = store.find? other := by
  have hlookup : ∀ entries : Store, (entries.erase id).lookup other = entries.lookup other := by
    intro entries
    induction entries with
    | nil => rfl
    | cons entry rest ih =>
      rcases entry with ⟨key, value⟩
      by_cases hk : key = id
      · have hne : (other == key) = false := by simpa [hk] using h
        simpa [erase, hk, List.lookup_cons, hne, hk ▸ hne] using ih
      · by_cases ho : other = key
        · simp [erase, hk, ho]
        · have hne : (other == key) = false := by simpa using ho
          simpa [erase, hk, List.lookup_cons, hne] using ih
  have hne : (other == id) = false := by simpa using h
  simpa [find?, put, List.lookup_cons, hne] using hlookup store

end Store
end LiveStyle.Session
