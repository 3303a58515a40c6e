import EffectShader.Text.Basic

/-!
# Tables

A table gives a value to each of finitely many names and lists them in the
order in which they were first given one.
-/

namespace EffectShader

abbrev Table (α : Type) := List (Text × α)

namespace Table

variable {α : Type}

def get? (t : Table α) (name : Text) : Option α :=
  (t.find? fun entry => entry.1 == name).map (·.2)

def has (t : Table α) (name : Text) : Bool :=
  t.any fun entry => entry.1 == name

def put : Table α -> Text -> α -> Table α
  | [], name, v => [(name, v)]
  | (n, w) :: t, name, v => if n == name then (n, v) :: t else (n, w) :: put t name v

def erase (t : Table α) (name : Text) : Table α :=
  t.filter fun entry => entry.1 != name

def names (t : Table α) : List Text :=
  t.map (·.1)

@[simp] theorem get?_nil (name : Text) : get? ([] : Table α) name = none := rfl

theorem get?_cons (n : Text) (v : α) (t : Table α) (name : Text) :
    get? ((n, v) :: t) name = if n == name then some v else get? t name := by
  by_cases h : n == name <;> simp [get?, h]

theorem get?_put_self (t : Table α) (name : Text) (v : α) :
    get? (put t name v) name = some v := by
  induction t with
  | nil => simp [put, get?_cons]
  | cons entry t ih =>
      obtain ⟨n, w⟩ := entry
      rw [put]
      split
      · rw [get?_cons, if_pos (by assumption)]
      · rw [get?_cons, if_neg (by assumption), ih]

theorem get?_put_of_ne (t : Table α) {name other : Text} (v : α) (h : name ≠ other) :
    get? (put t name v) other = get? t other := by
  induction t with
  | nil => simp [put, get?_cons, h]
  | cons entry t ih =>
      obtain ⟨n, w⟩ := entry
      rw [put]
      split
      · next hn =>
          have hn : n = name := by simpa using hn
          have hne : (n == other) = false := by simpa [hn] using h
          rw [get?_cons, get?_cons, hne]
          simp
      · rw [get?_cons, get?_cons, ih]

theorem get?_erase (t : Table α) (name other : Text) :
    get? (erase t name) other = if other = name then none else get? t other := by
  induction t with
  | nil => simp [erase]
  | cons entry t ih =>
      obtain ⟨n, w⟩ := entry
      rw [get?_cons]
      unfold erase at ih ⊢
      by_cases hn : n = name
      · rw [List.filter_cons_of_neg (by simp [hn]), ih]
        by_cases hother : other = name
        · rw [if_pos hother, if_pos hother]
        · rw [if_neg hother, if_neg hother, if_neg (by simpa [hn] using Ne.symm hother)]
      · rw [List.filter_cons_of_pos (by simp [hn]), get?_cons, ih]
        by_cases hother : other = name
        · rw [if_pos hother, if_pos hother, if_neg (by simpa [hother] using hn)]
        · rw [if_neg hother, if_neg hother]

end Table

end EffectShader
