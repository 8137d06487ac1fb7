/-
# EthP2P.Lib.Loops — what a loop over a list does, from what one round does

A loop is a left fold.  These rules cover the loops of the development: a reflexive and transitive relation
that each round satisfies holds between the start and the end, a quantity no round changes is the same at
the end, what a round establishes for its own element, and no other round undoes, holds at the end of
every element visited, and an invariant may speak of the elements visited so far.
-/
import Mathlib.Data.List.Basic

namespace EthP2P.Lib

variable {X A : Type*} {f : X → A → X}

theorem foldl_rel {r : X → X → Prop} (hrefl : ∀ x, r x x) (htrans : ∀ {x y z}, r x y → r y z → r x z)
    (hf : ∀ x a, r x (f x a)) (l : List A) (x : X) : r x (l.foldl f x) := by
  induction l generalizing x with
  | nil => exact hrefl x
  | cons a l ih => exact htrans (hf x a) (ih (f x a))

theorem foldl_same {B : Type*} (g : X → B) (hf : ∀ x a, g (f x a) = g x) (l : List A) (x : X) :
    g (l.foldl f x) = g x :=
  foldl_rel (r := fun x y => g y = g x) (fun _ => rfl) (fun h h' => h'.trans h) hf l x

/-- The round of an element makes `p` true of it, and no round makes it false again. -/
theorem foldl_visits {p : A → X → Prop} (hvisit : ∀ x a, p a (f x a))
    (hkeep : ∀ x a b, p b x → p b (f x a)) {l : List A} {a : A} (ha : a ∈ l) (x : X) : p a (l.foldl f x) := by
  have hstay : ∀ (l : List A) (x : X), p a x → p a (l.foldl f x) := by
    intro l x h
    exact foldl_rel (r := fun x y => p a x → p a y) (fun _ h => h) (fun h h' hx => h' (h hx))
      (fun x b => hkeep x b a) l x h
  induction l generalizing x with
  | nil => cases ha
  | cons b l ih =>
    rcases List.mem_cons.mp ha with rfl | ha
    · exact hstay l _ (hvisit x a)
    · exact ih ha (f x b)

/-- What no round brings about was there at the start. -/
theorem foldl_back {p : X → Prop} (hf : ∀ x a, p (f x a) → p x) {l : List A} {x : X} (h : p (l.foldl f x)) : p x :=
  foldl_rel (r := fun x y => p y → p x) (fun _ h => h) (fun h h' hz => h (h' hz)) hf l x h

/-- A loop over all elements that have `p` takes it from each of them. -/
theorem foldl_clears {p : A → X → Prop} (hvisit : ∀ x a, ¬ p a (f x a)) (hback : ∀ x a b, p b (f x a) → p b x)
    {l : List A} {x : X} (hall : ∀ a, p a x → a ∈ l) (a : A) : ¬ p a (l.foldl f x) := by
  intro h
  have ha : a ∈ l := hall a (foldl_back (fun x b => hback x b a) h)
  exact foldl_visits (p := fun a x => ¬ p a x) hvisit (fun x a b hb h => hb (hback x a b h)) ha x h

/-- The invariant rule of a loop: `I` knows which elements have been visited. -/
theorem foldl_seen {I : List A → X → Prop} (hstep : ∀ seen x a, I seen x → I (seen ++ [a]) (f x a))
    (l : List A) {x : X} (h : I [] x) : I l (l.foldl f x) := by
  suffices hrest : ∀ (l seen : List A) (x : X), I seen x → I (seen ++ l) (l.foldl f x) from hrest l [] x h
  intro l
  induction l with
  | nil => exact fun seen x h => by simpa using h
  | cons a l ih => exact fun seen x h => by simpa using ih _ _ (hstep seen x a h)

end EthP2P.Lib
