/-
NovarisOS.Lib.Patches — changes made one after another to parts of a memory
that lie apart.

A PATCH has a place, a start and a length. What it does is `Local` when it
changes nothing outside of its place and looks at nothing else. If the places
of a list of patches lie apart, the order does not matter: each byte is
changed by the one patch whose place it is in, as if this were the only one
(`foldl_inside`), and a byte in no place is left alone (`foldl_outside`).
-/
import NovarisOS.Lib.Mem

namespace NovarisOS

/-- The bytes of a patch: `len` of them from `start` on. -/
structure Place where
  start : Nat
  len : Nat
  deriving DecidableEq, Repr

namespace Place

def Has (p : Place) (i : Nat) : Prop := p.start ≤ i ∧ i < p.start + p.len

/-- They have no byte in common. -/
def Apart (p q : Place) : Prop := p.start + p.len ≤ q.start ∨ q.start + q.len ≤ p.start

variable {p q : Place} {i : Nat}

theorem Apart.symm (h : p.Apart q) : q.Apart p := Or.symm h

theorem Apart.not_has (h : p.Apart q) (hi : q.Has i) : ¬ p.Has i := by
  simp only [Apart, Has] at *
  omega

end Place

namespace Patches

variable {ι : Type*} {place : ι → Place} {act : ι → Mem → Mem}

/-- A patch changes its own place, by what it finds there. -/
structure Local (place : ι → Place) (act : ι → Mem → Mem) : Prop where
  outside : ∀ x m i, ¬ (place x).Has i → act x m i = m i
  inside : ∀ x m m', (∀ i, (place x).Has i → m i = m' i) → ∀ i, (place x).Has i → act x m i = act x m' i

/-- All of them, in order. -/
def apply (act : ι → Mem → Mem) (l : List ι) (m : Mem) : Mem := l.foldl (fun m x => act x m) m

@[simp] theorem apply_nil (m : Mem) : apply act [] m = m := rfl

@[simp] theorem apply_cons (x : ι) (l : List ι) (m : Mem) : apply act (x :: l) m = apply act l (act x m) := rfl

theorem apply_append (l l' : List ι) (m : Mem) : apply act (l ++ l') m = apply act l' (apply act l m) := by
  simp [apply]

theorem apply_outside (hloc : Local place act) {l : List ι} {i : Nat} (h : ∀ x ∈ l, ¬ (place x).Has i) (m : Mem) :
    apply act l m i = m i := by
  induction l generalizing m with
  | nil => rfl
  | cons x l ih =>
    rw [apply_cons, ih fun y hy => h y (List.mem_cons_of_mem x hy)]
    exact hloc.outside x m i (h x (List.mem_cons_self ..))

theorem apply_inside (hloc : Local place act) {l : List ι} (hl : l.Pairwise fun x y => (place x).Apart (place y))
    {x : ι} (hx : x ∈ l) {i : Nat} (hi : (place x).Has i) (m : Mem) : apply act l m i = act x m i := by
  induction l generalizing m with
  | nil => cases hx
  | cons y l ih =>
    rw [List.pairwise_cons] at hl
    rw [apply_cons]
    rcases List.mem_cons.1 hx with rfl | hx'
    · exact apply_outside hloc (fun z hz => (hl.1 z hz).symm.not_has hi) _
    · rw [ih hl.2 hx']
      exact hloc.inside x _ _ (fun j hj => hloc.outside y m j ((hl.1 x hx').not_has hj)) i hi

end Patches

end NovarisOS
