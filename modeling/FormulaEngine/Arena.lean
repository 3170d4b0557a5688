/-!
# Arenas

Append-only storage. An element is named by its place, which never changes, so that elements can
refer to one another while the arena still grows.
-/
namespace FormulaEngine

structure Arena (α : Type) where
  items : Array α

namespace Arena

variable {α : Type}

def empty : Arena α := ⟨#[]⟩

instance : EmptyCollection (Arena α) := ⟨empty⟩

def size (a : Arena α) : Nat := a.items.size

def isEmpty (a : Arena α) : Bool := a.size == 0

def alloc (a : Arena α) (x : α) : Arena α × Nat := (⟨a.items.push x⟩, a.size)

def get? (a : Arena α) (i : Nat) : Option α := a.items[i]?

def modify (a : Arena α) (i : Nat) (f : α → α) : Arena α := ⟨a.items.modify i f⟩

@[simp] theorem size_empty : (empty : Arena α).size = 0 := rfl

@[simp] theorem size_alloc (a : Arena α) (x : α) : (a.alloc x).1.size = a.size + 1 := by
  simp [alloc, size]

@[simp] theorem size_modify (a : Arena α) (i : Nat) (f : α → α) :
    (a.modify i f).size = a.size := by
  simp [modify, size]

theorem get?_alloc (a : Arena α) (x : α) (i : Nat) :
    (a.alloc x).1.get? i = if i = a.size then some x else a.get? i := by
  simp only [alloc, get?, Array.getElem?_push]
  rfl

theorem get?_modify (a : Arena α) (i j : Nat) (f : α → α) :
    (a.modify i f).get? j = if i = j then (a.get? j).map f else a.get? j := by
  simp [modify, get?, Array.getElem?_modify]

theorem lt_size_of_get? {a : Arena α} {i : Nat} {x : α} (h : a.get? i = some x) : i < a.size := by
  simp only [get?] at h
  exact (Array.getElem?_eq_some_iff.1 h).1

end Arena

end FormulaEngine
