import Mathlib.Order.Basic
import Mathlib.Order.MinMax
import Mathlib.Data.Set.Basic

/-! Half-open spans over a linear order, as the ends of items of any kind: what a span holds, and
on which side of a point it lies. The sides are `true` for above and `false` for below. -/

namespace CProfiler.Foundation

variable {ι α : Type*} [LinearOrder α]

/-- The ends of items. -/
structure Ends (ι α : Type*) where
  lo : ι → α
  hi : ι → α

namespace Ends

variable (e : Ends ι α)

def Holds (i : ι) (p : α) : Prop := e.lo i ≤ p ∧ p < e.hi i

/-- All of the span lies on one side of the point. -/
def Beyond (side : Bool) (p : α) (i : ι) : Prop :=
  match side with
  | true => p < e.lo i
  | false => e.hi i ≤ p

/-- Of two points the second lies further on the side. -/
def Further (side : Bool) (p q : α) : Prop :=
  match side with
  | true => p < q
  | false => q < p

/-- The two spans are the same, or one lies before the other. -/
def Apart (i j : ι) : Prop :=
  (e.lo i = e.lo j ∧ e.hi i = e.hi j) ∨ e.hi i ≤ e.lo j ∨ e.hi j ≤ e.lo i

instance (i j : ι) : Decidable (e.Apart i j) := inferInstanceAs (Decidable (_ ∨ _ ∨ _))

variable {e} {side : Bool} {p q : α} {i j : ι}

theorem Holds.lt (h : e.Holds i p) : e.lo i < e.hi i := h.1.trans_lt h.2

theorem Beyond.not_holds (h : e.Beyond side p i) : ¬ e.Holds i p := by
  intro hp
  cases side with
  | true => exact absurd hp.1 (not_le.mpr h)
  | false => exact absurd hp.2 (not_lt.mpr h)

/-- What lies beyond a point does not hold a point on the other side of it. -/
theorem Beyond.not_holds_of_further (h : e.Beyond side p i) (hq : Further (!side) p q) :
    ¬ e.Holds i q := by
  intro hp
  cases side with
  | true => exact absurd hp.1 (not_le.mpr (lt_trans hq h))
  | false => exact absurd hp.2 (not_lt.mpr (h.trans (le_of_lt hq)))

/-- A span lies on one side of every point that it does not hold. -/
theorem beyond_of_not_holds (h : ¬ e.Holds i p) : e.Beyond (decide (p < e.lo i)) p i := by
  by_cases hlt : p < e.lo i
  · rw [decide_eq_true hlt]
    exact hlt
  · rw [decide_eq_false hlt]
    exact not_lt.mp fun hhi => h ⟨not_lt.mp hlt, hhi⟩

theorem Apart.symm (h : e.Apart i j) : e.Apart j i := by
  rcases h with ⟨hlo, hhi⟩ | hij | hji
  · exact .inl ⟨hlo.symm, hhi.symm⟩
  · exact .inr (.inr hij)
  · exact .inr (.inl hji)

/-- A point that both of two such spans hold makes them the same. -/
theorem Apart.eq_of_holds (h : e.Apart i j) (hi : e.Holds i p) (hj : e.Holds j p) :
    e.lo i = e.lo j ∧ e.hi i = e.hi j := by
  rcases h with heq | hij | hji
  · exact heq
  · exact absurd (hi.2.trans_le (hij.trans hj.1)) (lt_irrefl p)
  · exact absurd (hj.2.trans_le (hji.trans hi.1)) (lt_irrefl p)

/-- A span beyond `p` that holds `q` puts `q` further on that side. -/
theorem Beyond.further (h : e.Beyond side p j) (hq : e.Holds j q) : Further side p q := by
  cases side with
  | true => exact lt_of_lt_of_le h hq.1
  | false => exact lt_of_lt_of_le hq.2 h

/-- What lies on the near side of `p` lies on the near side of everything further. -/
theorem Beyond.of_further (h : e.Beyond (!side) p i) (hq : Further side p q) :
    e.Beyond (!side) q i := by
  cases side with
  | true => exact le_trans h (le_of_lt hq)
  | false => exact lt_trans hq h

/-- A span that is not empty does not lie on both sides of a point. -/
theorem Beyond.not_other (h : e.Beyond side p i) (hq : e.Holds i q) : ¬ e.Beyond (!side) p i := by
  intro h'
  cases side with
  | true => exact absurd (lt_trans h (hq.lt.trans_le h')) (lt_irrefl p)
  | false => exact absurd (lt_trans h' (hq.lt.trans_le h)) (lt_irrefl p)

/-- A span that holds `p` lies on the near side of any point that a span beyond `p` holds. -/
theorem Apart.beyond (h : e.Apart i j) (hp : e.Holds i p) (hj : e.Beyond side p j)
    (hq : e.Holds j q) : e.Beyond (!side) q i := by
  rcases h with heq | hij | hji
  · have hjp : e.Holds j p := ⟨heq.1 ▸ hp.1, heq.2 ▸ hp.2⟩
    exact absurd hjp hj.not_holds
  · cases side with
    | true => exact hij.trans hq.1
    | false =>
        have hip : e.hi i ≤ p := hij.trans (hq.1.trans (hq.2.le.trans hj))
        exact absurd (hp.2.trans_le hip) (lt_irrefl p)
  · cases side with
    | true =>
        have hpi : p < e.lo i := lt_of_lt_of_le hj (hq.1.trans (hq.2.le.trans hji))
        exact absurd (hpi.trans_le hp.1) (lt_irrefl p)
    | false => exact lt_of_lt_of_le hq.2 hji

end Ends

end CProfiler.Foundation
