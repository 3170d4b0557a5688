import FormulaEngine.Context.Binding

/-!
# Contexts

The keys that formulas can refer to, with their bindings. The entries are kept in strictly
increasing order of their keys, so that a context is determined by its bindings alone and not by
how it was made.
-/
namespace FormulaEngine

structure Context where
  entries : List (String × Binding)
  sorted : entries.Pairwise fun a b => a.1 < b.1

namespace Context

def empty : Context := ⟨[], .nil⟩

instance : EmptyCollection Context := ⟨empty⟩

def keys (ctx : Context) : List String := ctx.entries.map Prod.fst

def size (ctx : Context) : Nat := ctx.entries.length

def isEmpty (ctx : Context) : Bool := ctx.entries.isEmpty

def find? (key : String) : List (String × Binding) → Option Binding
  | [] => none
  | (k, b) :: entries => if key = k then some b else find? key entries

def lookup (ctx : Context) (key : String) : Option Binding := find? key ctx.entries

def contains (ctx : Context) (key : String) : Bool := (ctx.lookup key).isSome

/-- Puts an entry in its place, where it replaces one of the same key. -/
def insert (key : String) (b : Binding) : List (String × Binding) → List (String × Binding)
  | [] => [(key, b)]
  | (k, c) :: entries =>
    if key < k then (key, b) :: (k, c) :: entries
    else if k < key then (k, c) :: insert key b entries
    else (key, b) :: entries

theorem mem_insert {key : String} {b : Binding} {entries : List (String × Binding)}
    {e : String × Binding} (h : e ∈ insert key b entries) : e = (key, b) ∨ e ∈ entries := by
  induction entries with
  | nil => simpa [insert] using h
  | cons head entries ih =>
    obtain ⟨k, c⟩ := head
    simp only [insert] at h
    split at h
    · simpa using h
    · split at h
      · rcases List.mem_cons.1 h with h | h
        · simp [h]
        · rcases ih h with h | h <;> simp [h]
      · rcases List.mem_cons.1 h with h | h <;> simp [h]

theorem eq_of_not_lt {a b : String} (h : ¬a < b) (h' : ¬b < a) : a = b :=
  String.le_antisymm (String.not_lt.1 h') (String.not_lt.1 h)

theorem sorted_insert (key : String) (b : Binding) {entries : List (String × Binding)}
    (h : entries.Pairwise fun a b => a.1 < b.1) :
    (insert key b entries).Pairwise fun a b => a.1 < b.1 := by
  induction entries with
  | nil => simp [insert]
  | cons head entries ih =>
    obtain ⟨k, c⟩ := head
    obtain ⟨hk, ht⟩ := List.pairwise_cons.1 h
    simp only [insert]
    split
    · rename_i hlt
      refine List.pairwise_cons.2 ⟨?_, h⟩
      intro e he
      rcases List.mem_cons.1 he with rfl | he
      · exact hlt
      · exact String.lt_trans hlt (hk e he)
    · split
      · rename_i hlt
        refine List.pairwise_cons.2 ⟨?_, ih ht⟩
        intro e he
        rcases mem_insert he with rfl | he
        · exact hlt
        · exact hk e he
      · rename_i h1 h2
        have hkey := eq_of_not_lt h1 h2
        subst hkey
        exact List.pairwise_cons.2 ⟨hk, ht⟩

theorem find?_insert (key : String) (b : Binding) {entries : List (String × Binding)}
    (h : entries.Pairwise fun a b => a.1 < b.1) (k : String) :
    find? k (insert key b entries) = if k = key then some b else find? k entries := by
  induction entries with
  | nil => simp [insert, find?]
  | cons head entries ih =>
    obtain ⟨n, c⟩ := head
    have ih := ih (List.pairwise_cons.1 h).2
    simp only [insert]
    split
    · simp only [find?]
    · split
      · rename_i h1 h2
        simp only [find?, ih]
        by_cases hk : k = n
        · subst hk
          simp [(String.ne_of_lt h2)]
        · simp [hk]
      · rename_i h1 h2
        have hkey := eq_of_not_lt h1 h2
        subst hkey
        by_cases hk : k = key <;> simp [find?, hk]

theorem find?_filter (key : String) (entries : List (String × Binding)) (k : String) :
    find? k (entries.filter fun e => e.1 != key) = if k = key then none else find? k entries := by
  induction entries with
  | nil => simp [find?]
  | cons head entries ih =>
    obtain ⟨n, c⟩ := head
    by_cases hn : n = key
    · subst hn
      simp only [List.filter_cons, bne_self_eq_false, Bool.false_eq_true, if_false, ih, find?]
      by_cases hk : k = n <;> simp [hk]
    · simp only [List.filter_cons, bne_iff_ne, ne_eq, hn, not_false_eq_true, if_true, find?, ih]
      by_cases hk : k = n
      · simp [hk, hn]
      · simp [hk]

theorem find?_eq_none {k : String} {entries : List (String × Binding)}
    (h : ∀ e ∈ entries, k < e.1) : find? k entries = none := by
  induction entries with
  | nil => rfl
  | cons head entries ih =>
    obtain ⟨n, c⟩ := head
    have hk : k < n := h (n, c) (by simp)
    simp only [find?, String.ne_of_lt hk, if_false]
    exact ih fun e he => h e (by simp [he])

theorem eq_of_find?_eq {es fs : List (String × Binding)} (he : es.Pairwise fun a b => a.1 < b.1)
    (hf : fs.Pairwise fun a b => a.1 < b.1) (h : ∀ k, find? k es = find? k fs) : es = fs := by
  induction es generalizing fs with
  | nil =>
    cases fs with
    | nil => rfl
    | cons f fs => simpa [find?] using h f.1
  | cons e es ih =>
    obtain ⟨k, b⟩ := e
    obtain ⟨hk, hes⟩ := List.pairwise_cons.1 he
    cases fs with
    | nil => simpa [find?] using h k
    | cons f fs =>
      obtain ⟨n, c⟩ := f
      obtain ⟨hn, hfs⟩ := List.pairwise_cons.1 hf
      have least : ¬k < n ∧ ¬n < k := by
        constructor
        · intro hlt
          have := h k
          simp only [find?, if_true, String.ne_of_lt hlt, if_false] at this
          rw [find?_eq_none fun e he => String.lt_trans hlt (hn e he)] at this
          cases this
        · intro hlt
          have := h n
          simp only [find?, if_true, String.ne_of_lt hlt, if_false] at this
          rw [find?_eq_none fun e he => String.lt_trans hlt (hk e he)] at this
          cases this
      have hkey := eq_of_not_lt least.1 least.2
      subst hkey
      have hb := h k
      simp only [find?, if_true, Option.some.injEq] at hb
      subst hb
      refine congrArg _ (ih hes hfs fun x => ?_)
      by_cases hx : x = k
      · subst hx
        rw [find?_eq_none hk, find?_eq_none hn]
      · simpa [find?, hx] using h x

def set (ctx : Context) (key : String) (b : Binding) : Context where
  entries := insert key b ctx.entries
  sorted := sorted_insert key b ctx.sorted

def remove (ctx : Context) (key : String) : Context where
  entries := ctx.entries.filter fun e => e.1 != key
  sorted := ctx.sorted.filter _

def rename (ctx : Context) (key target : String) : Context :=
  match ctx.lookup key with
  | some b => (ctx.remove key).set target b
  | none => ctx

def pushed (item : Binding) : Option Binding → Binding
  | some (.list items) => .list (items ++ [item])
  | some b => .list [b, item]
  | none => .list [item]

/-- Appends to the list bound to a key; any other binding becomes its first element. -/
def push (ctx : Context) (key : String) (item : Binding) : Context :=
  ctx.set key (pushed item (ctx.lookup key))

theorem eq_of_lookup_eq {ctx other : Context} (h : ∀ k, ctx.lookup k = other.lookup k) :
    ctx = other := by
  cases ctx
  cases other
  congr
  exact eq_of_find?_eq ‹_› ‹_› h

theorem lookup_set (ctx : Context) (key : String) (b : Binding) (k : String) :
    (ctx.set key b).lookup k = if k = key then some b else ctx.lookup k :=
  find?_insert key b ctx.sorted k

theorem lookup_remove (ctx : Context) (key k : String) :
    (ctx.remove key).lookup k = if k = key then none else ctx.lookup k :=
  find?_filter key ctx.entries k

theorem lookup_push (ctx : Context) (key : String) (item : Binding) (k : String) :
    (ctx.push key item).lookup k =
      if k = key then some (pushed item (ctx.lookup key)) else ctx.lookup k :=
  lookup_set ctx key _ k

def ofEntries (entries : List (String × Binding)) : Context :=
  entries.foldl (fun ctx e => ctx.set e.1 e.2) empty

end Context

end FormulaEngine
