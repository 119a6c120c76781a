import Got.Diff.Midpoint
import Got.Diff.MyersMinimal

/-!
# The middle of a shortest way

When the walks from both ends of the graph meet, after as many steps as a shortest way through
the graph has, the middle lies on a shortest way. For that both of them have to get as far as
one can with each step.

The walk from the start does. The one from the end decides by the wrong comparison. From a
diagonal next to it one comes to a place by a step upwards, or by a step to the left from the
other one, and if both of these places have the same `x`, the step to the left gets farther;
but the step upwards is taken. Besides, at the sides of the graph, it goes on from diagonals it
never was on. So it may be late, and the walks then meet too late, where no shortest way goes
(`not_dividesShortest_late`).

How far one can get from the end does not depend on what the code does (`farthest`): it is the
mirror image of how far one gets from the start. A step is right if it gets as far as that, and
only those steps matter which are made before the walks meet, diagonal by diagonal (`NotMet`).
If all of these are right (`RightSteps`), so is the walk (`retreat_eq_farthest`), and all is
well. If one of them is not, the code does make a wrong step (`rightSteps_iff`).
-/

namespace Got

open EditGraph

section Mirror

variable {same : ℤ → ℤ → Bool} {m n x y : ℤ} {c : ℤ} {d : ℕ} {box : DiffBox}

/-! ## The mirror image -/

/-- **The farthest place** on a diagonal from where one gets to the end with some steps: where one
gets from the start, in the mirror image. It is -1 on the diagonals outside of the graph. -/
def farthest (same : ℤ → ℤ → Bool) (m n : ℤ) (d : ℕ) : Column := fun c =>
  if InRange n m d c then m - reach (mirror same m n) m n d (-c) else -1

/-- **The walks have not met** before the one from the end comes to a diagonal, if the columns are
how far it gets. A meeting is noticed forwards if the lengths differ by an odd number, and
backwards otherwise, from the highest diagonal down. -/
structure NotMet (same : ℤ → ℤ → Bool) (m n : ℤ) (back : ℕ → Column) (d : ℕ) (c : ℤ) : Prop where
  forward : (n - m) % 2 ≠ 0 → ∀ e < d, ∀ k, InRange m n (e + 1) k → InRange n m e (k + (n - m)) →
    reach same m n (e + 1) k ≤ m → reach same m n (e + 1) k - k ≤ n →
    reach same m n (e + 1) k < back e (k + (n - m))
  backward : (n - m) % 2 = 0 → ∀ e ≤ d, ∀ c', (e = d → c < c') → InRange n m e c' →
    InRange m n e (c' - (n - m)) → 0 ≤ back e c' → 0 ≤ back e c' - c' + (n - m) →
    reach same m n e (c' - (n - m)) < back e c'

/-- **No step goes wrong** on the way from the end before the walks meet: from the farthest places
of the step before, the one that is taken leads to the farthest place. -/
def RightSteps (same : ℤ → ℤ → Bool) (m n : ℤ) : Prop :=
  ∀ d c, InRange n m (d + 1) c → NotMet same m n (farthest same m n) (d + 1) c →
    slideUp same c (n - m) (backwardStep m n (farthest same m n d) (d + 1) c).2.2
      = farthest same m n (d + 1) c

theorem inRange_neg : InRange n m d c ↔ InRange m n d (-c) := by
  unfold InRange
  omega

/-- To slide up is to slide down in the mirror image. -/
theorem slideUp_eq_mirror (same : ℤ → ℤ → Bool) (m n c x : ℤ) :
    slideUp same c (n - m) x = m - slide (mirror same m n) m n (m - x) (-c) := by
  have hloop : ∀ fuel x, slideUpLoop same c (n - m) fuel x
      = m - slideLoop (mirror same m n) m n fuel (m - x) (-c) := by
    intro fuel
    induction fuel with
    | zero =>
      intro x
      exact (sub_sub_cancel m x).symm
    | succ fuel ih =>
      intro x
      have h1 : m - 1 - (m - x) = x - 1 := by omega
      have h2 : n - 1 - (m - x - -c) = x - c + (n - m) - 1 := by omega
      rw [slideUpLoop, slideLoop, mirror, h1, h2]
      have hcond : x > 0 ∧ x - c + (n - m) > 0 ∧ same (x - 1) (x - c + (n - m) - 1) = true
          ↔ m - x < m ∧ m - x - -c < n ∧ same (x - 1) (x - c + (n - m) - 1) = true := by
        constructor
        · rintro ⟨hx, hy, hsame⟩
          exact ⟨by omega, by omega, hsame⟩
        · rintro ⟨hx, hy, hsame⟩
          exact ⟨by omega, by omega, hsame⟩
      have hnext : m - (x - 1) = m - x + 1 := by omega
      rw [if_congr hcond rfl rfl, ih, hnext]
      split
      · rfl
      · exact (sub_sub_cancel m x).symm
  rw [slideUp, slide, hloop, sub_sub_cancel]

section

variable (hm : 0 < m) (hn : 0 < n)

include hm hn

omit hm hn in
/-- Where the columns agree up to a diagonal, the walks have met with both of them or with none. -/
theorem NotMet.congr {back back' : ℕ → Column} (h : NotMet same m n back d c)
    (hbefore : ∀ e < d, back e = back' e) (hlevel : ∀ c' > c, back d c' = back' d c') :
    NotMet same m n back' d c := by
  refine ⟨fun hodd e he k => hbefore e he ▸ h.forward hodd e he k, fun heven e he c' hc' => ?_⟩
  rcases he.lt_or_eq with hlt | rfl
  · exact hbefore e hlt ▸ h.backward heven e he c' hc'
  · exact hlevel c' (hc' rfl) ▸ h.backward heven e he c' hc'

omit hm hn in
/-- What is met is met earlier. -/
theorem NotMet.earlier {back : ℕ → Column} {e : ℕ} {c' : ℤ} (h : NotMet same m n back d c)
    (hle : e ≤ d) (hc : e = d → c ≤ c') : NotMet same m n back e c' :=
  ⟨fun hodd e' he' => h.forward hodd e' (he'.trans_le hle), fun heven e' he' c'' hc'' =>
    h.backward heven e' (he'.trans hle) c'' fun heq => by
      obtain rfl : e = d := le_antisymm hle (heq ▸ he')
      exact (hc rfl).trans_lt (hc'' heq)⟩

omit hm hn in
/-- **Columns agree up to where the walks meet**, if from columns that agree each step leads to the
same place. By induction on the steps, and on the diagonals from the highest one down. -/
theorem NotMet.agree {back back' : ℕ → Column}
    (hout : ∀ d c, ¬InRange n m d c → back d c = back' d c) (hzero : back 0 0 = back' 0 0)
    (hstep : ∀ d c, InRange n m (d + 1) c → NotMet same m n back (d + 1) c →
      NotMet same m n back' (d + 1) c → back d = back' d → back (d + 1) c = back' (d + 1) c)
    (h : NotMet same m n back d c) : back d c = back' d c := by
  induction d using Nat.strong_induction_on generalizing c with
  | _ d ihd =>
    induction hk : (d - c).toNat using Nat.strong_induction_on generalizing c with
    | _ k ihc =>
      subst hk
      by_cases hin : InRange n m d c
      · cases d with
        | zero =>
          obtain rfl : c = 0 := by
            obtain ⟨h1, h2, -⟩ := hin
            push_cast at h1 h2
            omega
          exact hzero
        | succ d =>
          have hbefore : ∀ e < d + 1, back e = back' e := fun e he =>
            funext fun c' => ihd e he (h.earlier he.le fun heq => absurd heq he.ne)
          have hlevel : ∀ c' > c, back (d + 1) c' = back' (d + 1) c' := by
            intro c' hc'
            by_cases hin' : InRange n m (d + 1) c'
            · have hhigh := hin'.2.1
              exact ihc _ (by omega) (h.earlier le_rfl fun _ => hc'.le) rfl
            · exact hout _ _ hin'
          exact hstep d c hin h (h.congr hbefore hlevel) (hbefore d (Nat.lt_succ_self d))
      · exact hout d c hin

theorem retreat_zero_eq_farthest : retreat same m n 0 0 = farthest same m n 0 0 := by
  have hin : InRange n m 0 0 := ⟨by omega, by omega, by omega, by omega, by omega⟩
  rw [retreat, if_pos rfl, farthest, if_pos hin, slideUp_eq_mirror, sub_self, neg_zero, reach_zero]

theorem retreat_eq_farthest_of_not_inRange (d : ℕ) (c : ℤ) (h : ¬InRange n m d c) :
    retreat same m n d c = farthest same m n d c := by
  rw [retreat_of_not_inRange h hm.le hn.le, farthest, if_neg h]

/-- **The steps are right** that are made before the walks meet, if and only if each of them gets as
far as one can in the run itself. -/
theorem rightSteps_iff : RightSteps same m n ↔ ∀ d c, InRange n m (d + 1) c →
    NotMet same m n (retreat same m n) (d + 1) c →
    retreat same m n (d + 1) c = farthest same m n (d + 1) c := by
  constructor
  · intro hright d c _ h
    refine NotMet.agree (retreat_eq_farthest_of_not_inRange hm hn) (retreat_zero_eq_farthest hm hn)
      (fun d c hin _ hnot heq => ?_) h
    rw [retreat, if_pos hin, heq, hright d c hin hnot]
  · intro hright d c hin h
    have hagree := fun {e c'} => @NotMet.agree same m n c' e (farthest same m n) (retreat same m n)
      (fun d c hnot => (retreat_eq_farthest_of_not_inRange hm hn d c hnot).symm)
      (retreat_zero_eq_farthest hm hn).symm
      (fun d c hin _ hnot _ => (hright d c hin hnot).symm)
    have hbefore : ∀ e < d + 1, farthest same m n e = retreat same m n e := fun e he =>
      funext fun c' => hagree (h.earlier he.le fun heq => absurd heq he.ne)
    have hlevel : ∀ c' > c, farthest same m n (d + 1) c' = retreat same m n (d + 1) c' :=
      fun c' hc' => hagree (h.earlier le_rfl fun _ => hc'.le)
    rw [← hright d c hin (h.congr hbefore hlevel), retreat, if_pos hin,
      hbefore d (Nat.lt_succ_self d)]

omit hm hn in
theorem notMet_of_apart (hapart : ∀ e ≤ d, Apart same m n e) (c : ℤ) :
    NotMet same m n (retreat same m n) d c :=
  ⟨fun hodd e he k => (hapart (e + 1) he).forward hodd e rfl k,
    fun heven e he c' _ => (hapart e he).backward heven c'⟩

/-- **If no step goes wrong**, the walk from the end is the mirror image of a walk from the start,
as long as they are apart. -/
theorem retreat_eq_mirror (hright : RightSteps same m n) (hapart : ∀ e ≤ d, Apart same m n e)
    (hin : InRange n m d c) :
    retreat same m n d c = m - reach (mirror same m n) m n d (-c) := by
  have hfar : retreat same m n d c = farthest same m n d c := by
    cases d with
    | zero =>
      obtain rfl : c = 0 := by
        obtain ⟨h1, h2, -⟩ := hin
        push_cast at h1 h2
        omega
      exact retreat_zero_eq_farthest hm hn
    | succ d => exact (rightSteps_iff hm hn).mp hright d c hin (notMet_of_apart hapart c)
  rw [hfar, farthest, if_pos hin]

/-- **One gets to the end** from there, with as many steps. -/
theorem walk_retreat (hright : RightSteps same m n) (hapart : ∀ e ≤ d, Apart same m n e)
    (hin : InRange n m d c) :
    Walk same (retreat same m n d c) (retreat same m n d c - c + (n - m)) d m n := by
  have hreach : Walk (mirror same m n) 0 0 d (reach (mirror same m n) m n d (-c))
      (reach (mirror same m n) m n d (-c) - -c) :=
    walk_reach _ hm.le hn.le (add_pos hm hn) (inRange_neg.mp hin)
  have hwalk := hreach.mirror m n
  rw [mirror_mirror, sub_zero, sub_zero] at hwalk
  rw [retreat_eq_mirror hm hn hright hapart hin]
  have hy : m - reach (mirror same m n) m n d (-c) - c + (n - m)
      = n - (reach (mirror same m n) m n d (-c) - -c) := by omega
  rwa [hy]

omit hm hn in
/-- From where one gets to the end with some steps one can have come with as many. -/
theorem inRange_of_walk (h : Walk same x y d m n) (hx : 0 ≤ x) (hy : 0 ≤ y) :
    InRange n m d (x - y + (n - m)) := by
  have hwalk := h.mirror m n
  rw [sub_self, sub_self] at hwalk
  have hin := hwalk.inRange (Int.sub_le_self m hx) (Int.sub_le_self n hy)
  have hc : x - y + (n - m) = -(m - x - (n - y)) := by omega
  rw [hc, inRange_neg, neg_neg]
  exact hin

/-- **No walk to the end begins farther away**, with as many steps. -/
theorem retreat_le_of_walk (hright : RightSteps same m n) (hapart : ∀ e ≤ d, Apart same m n e)
    (h : Walk same x y d m n) (hx : 0 ≤ x) (hy : 0 ≤ y) :
    retreat same m n d (x - y + (n - m)) ≤ x := by
  have hwalk := h.mirror m n
  rw [sub_self, sub_self] at hwalk
  have hle := hwalk.le_reach hm.le hn.le (add_pos hm hn) (Int.sub_le_self m hx)
    (Int.sub_le_self n hy)
  have hc : -(x - y + (n - m)) = m - x - (n - y) := by omega
  rw [retreat_eq_mirror hm hn hright hapart (inRange_of_walk h hx hy), hc]
  omega

/-! ## The walks do not meet too late -/

/-- **The walk from the end has not met the other one** at all, if it has not in the graph: where it
leaves the graph the other one was before. -/
theorem Apart.reach_lt (hright : RightSteps same m n) (heven : (n - m) % 2 = 0)
    (hapart : ∀ e ≤ d, Apart same m n e) (hin : InRange n m d c)
    (hin' : InRange m n d (c - (n - m))) :
    reach same m n d (c - (n - m)) < retreat same m n d c := by
  induction d using Nat.strong_induction_on generalizing c with
  | _ d ih =>
    by_contra hge
    have hmn := add_pos hm hn
    -- it has left the graph
    have hout : retreat same m n d c < 0 ∨ retreat same m n d c - c + (n - m) < 0 := by
      by_contra hnot
      exact hge ((hapart d le_rfl).backward heven c hin hin' (by omega) (by omega))
    have heq := retreat_eq_mirror hm hn hright hapart hin
    have hinm := inRange_neg.mp hin
    have hnonneg := fun {e k} => @reach_nonneg same m n e k hm.le hn.le hmn
    have hmirror : ∀ {e c}, e ≤ d → InRange n m e c →
        retreat same m n e c = m - reach (mirror same m n) m n e (-c) := fun he h =>
      retreat_eq_mirror hm hn hright (fun e' he' => hapart e' (he'.trans he)) h
    obtain ⟨h1, h2, hpar, h3, h4⟩ := id hin
    obtain ⟨h1', h2', -, h3', h4'⟩ := id hin'
    rcases lt_trichotomy (c - (n - m)) 0 with hk | hk | hk
    · -- to the left of the graph
      cases d with
      | zero => omega
      | succ e =>
        push_cast at h1 h2 hpar h1' h2'
        have hright' : m + 1 ≤ reach (mirror same m n) m n (e + 1) (-c) := by omega
        have hback := reach_right hm.le hn.le hmn hinm (by omega) le_rfl hright'
        have hc : -c - 1 = -(c + 1) := by omega
        rw [hc] at hback
        have hine := inRange_neg.mpr (inRange_of_reach hm.le hn.le (by omega : 0 ≤ reach
          (mirror same m n) m n e (-(c + 1))))
        have hk' : c + 1 - (n - m) = c - (n - m) + 1 := by omega
        have hine' : InRange m n e (c + 1 - (n - m)) :=
          ⟨by omega, by omega, by omega, by omega, by omega⟩
        have hlt := ih e (Nat.lt_succ_self e)
          (fun e' he' => hapart e' (Nat.le_succ_of_le he')) hine hine'
        have := (hnonneg hine').1
        have := hmirror (Nat.le_succ e) hine
        omega
    · -- it was at the start of the graph
      have hc : -c = m - n := by omega
      rw [hc] at heq
      obtain ⟨e, he, hend⟩ := exists_reach_eq_of_le (mirror same m n) hm.le hn.le
        (by omega : m ≤ reach (mirror same m n) m n d (m - n))
      rcases he.lt_or_eq with hlt | rfl
      · have hine := inRange_of_reach hm.le hn.le (hm.le.trans_eq hend.symm)
        rw [← hc] at hine hend
        have hine := inRange_neg.mpr hine
        obtain ⟨g1, g2, gpar, -⟩ := id hine
        have hine' : InRange m n e (c - (n - m)) :=
          ⟨by omega, by omega, by omega, by omega, by omega⟩
        have hlt' := ih e hlt (fun e' he' => hapart e' (he'.trans he)) hine hine'
        have := (hnonneg hine').1
        have := hmirror he hine
        omega
      · omega
    · -- above the graph
      cases d with
      | zero => omega
      | succ e =>
        push_cast at h1 h2 hpar h1' h2'
        have hbelow : n + 1 ≤ reach (mirror same m n) m n (e + 1) (-c) - -c := by omega
        have hback := reach_below hm.le hn.le hmn hinm (by omega) le_rfl hbelow
        have hc : -c + 1 = -(c - 1) := by omega
        rw [hc] at hback
        have hine := inRange_neg.mpr (inRange_of_reach hm.le hn.le (by omega : 0 ≤ reach
          (mirror same m n) m n e (-(c - 1))))
        have hine' : InRange m n e (c - 1 - (n - m)) :=
          ⟨by omega, by omega, by omega, by omega, by omega⟩
        have hlt := ih e (Nat.lt_succ_self e)
          (fun e' he' => hapart e' (Nat.le_succ_of_le he')) hine hine'
        have := (hnonneg hine').2.1
        have := hmirror (Nat.le_succ e) hine
        omega

/-- **As long as the walks are apart** they have not made more steps, together, than any walk
through the graph. -/
theorem two_mul_le_of_apart {E : ℕ} (h : Walk same 0 0 E m n) (hright : RightSteps same m n)
    (hapart : ∀ e < d, Apart same m n e) : 2 * d ≤ E + 1 := by
  by_contra hlt
  have hmn := add_pos hm hn
  -- where it is in the middle
  obtain ⟨x, y, hbefore, hbehind⟩ := (show (E + 1) / 2 + E / 2 = E by omega) ▸ h |>.split
  obtain ⟨hx, hy, -⟩ := hbefore.bounds
  obtain ⟨hx', hy', -⟩ := hbehind.bounds
  have hpar := h.bounds.2.2.2.2
  have hin := hbefore.inRange hx' hy'
  have hin' := inRange_of_walk hbehind hx hy
  have hreach := hbefore.le_reach hm.le hn.le hmn hx' hy'
  have hretreat := retreat_le_of_walk hm hn hright (fun e' he' => hapart e' (by omega)) hbehind
    hx hy
  by_cases heven : (n - m) % 2 = 0
  · obtain ⟨e, rfl⟩ : ∃ e, E = 2 * e := ⟨E / 2, by omega⟩
    have h1 : (2 * e + 1) / 2 = e := by omega
    have h2 : 2 * e / 2 = e := by omega
    rw [h1] at hin hreach
    rw [h2] at hin' hretreat
    have hk : x - y + (n - m) - (n - m) = x - y := by omega
    have hmet := Apart.reach_lt hm hn hright heven (fun e' he' => hapart e' (by omega)) hin'
      (hk.symm ▸ hin)
    rw [hk] at hmet
    omega
  · obtain ⟨e, rfl⟩ : ∃ e, E = 2 * e + 1 := ⟨E / 2, by omega⟩
    have h1 : (2 * e + 1 + 1) / 2 = e + 1 := by omega
    have h2 : (2 * e + 1) / 2 = e := by omega
    rw [h1] at hin hreach
    rw [h2] at hin' hretreat
    obtain ⟨hinX, hinY⟩ := reach_in hm hn heven (fun e' he' => hapart e' (by omega)) hin hin'
    have hmet := (hapart (e + 1) (by omega)).forward heven e rfl _ hin hin' hinX hinY
    omega

/-! ## The middle lies on a shortest way -/

/-- **A box on a shortest way** through the graph. -/
def DiffBox.OnShortest (same : ℤ → ℤ → Bool) (m n : ℤ) (box : DiffBox) : Prop :=
  ∃ a b e, Walk same 0 0 a box.leftStart box.rightStart
    ∧ Walk same box.leftStart box.rightStart b box.leftEnd box.rightEnd
    ∧ Walk same box.leftEnd box.rightEnd e m n ∧ ∀ E, Walk same 0 0 E m n → a + b + e ≤ E

omit hm hn in
/-- A step is one of a walk. -/
theorem IsStep.walk {x' y' : ℤ} (h : IsStep x y x' y') (hlt : x + y < x' + y') :
    Walk same x y 1 x' y' := by
  rcases h with ⟨rfl, rfl⟩ | ⟨rfl, rfl⟩ | ⟨rfl, rfl⟩
  · exact absurd hlt (lt_irrefl _)
  · exact Walk.refl.right
  · exact Walk.refl.down

omit hm hn in
/-- One slides along what is the same. -/
theorem walk_slide {x' : ℤ} (hle : x ≤ x')
    (hsame : ∀ z, x ≤ z → z < x' → same z (z - x + y) = true) :
    Walk same x y 0 x' (x' - x + y) := by
  obtain ⟨len, rfl⟩ := Int.le.dest hle
  have hy : x + len - x + y = y + len := by omega
  rw [hy]
  refine Walk.slides fun i hi => ?_
  have h := hsame (x + i) (by omega) (by omega)
  rwa [add_sub_cancel_left, add_comm (i : ℤ)] at h

/-- **The walk from the start** comes through the middle, and to the end with as many steps less
one as it has made. -/
theorem FoundForward.onShortest {kdBackward : Column} {E : ℕ} (hE : Walk same 0 0 E m n)
    (hmin : ∀ E', Walk same 0 0 E' m n → E ≤ E') (hright : RightSteps same m n)
    (hapart : ∀ e < d, Apart same m n e)
    (hback : ∀ e, d = e + 1 → ∀ c : ℤ, (e - c) % 2 = 0 → kdBackward c = retreat same m n e c)
    (h : FoundForward same m n kdBackward d box) : box.OnShortest same m n := by
  have hsteps := two_mul_le_of_apart hm hn hE hright hapart
  obtain ⟨k, prevX, prevY, x₀, hin, ⟨-, -, hstep, hlen, hslide, hprev⟩, heq⟩ := h
  obtain ⟨⟨hx, hx', hy, hy'⟩, ⟨hodd, hd⟩, ⟨hlow, hhigh, hmet⟩, rfl⟩ := forwardMeets_eq_some heq
  obtain ⟨e, rfl⟩ : ∃ e, d = e + 1 := Nat.exists_eq_succ_of_ne_zero hd
  obtain ⟨k', hin', hprevX, hprevY⟩ := hprev e rfl
  have hwalk := walk_reach same hm.le hn.le (add_pos hm hn) hin'
  rw [← hprevX, ← hprevY] at hwalk
  have hone : Walk same prevX prevY 1 x₀ (x₀ - k) := hstep.walk (hlen hd)
  have hslides : Walk same x₀ (x₀ - k) 0 (reach same m n (e + 1) k)
    (reach same m n (e + 1) k - k) := by
    have hy : reach same m n (e + 1) k - k = reach same m n (e + 1) k - x₀ + (x₀ - k) := by omega
    rw [hy, ← hslide]
    refine walk_slide (slide_le same m n x₀ k) fun z hz hlt => ?_
    rw [← add_sub_assoc, sub_add_cancel]
    exact same_of_slide hz hlt
  -- from there on, the walk from the end gets there with a step less
  obtain ⟨hk1, hk2, hpar, hk3, hk4⟩ := id hin
  push_cast at hk1 hk2 hpar hlow hhigh
  have hinc : InRange n m e (k + (n - m)) := ⟨by omega, by omega, by omega, by omega, by omega⟩
  rw [hback e rfl _ (by omega)] at hmet
  obtain ⟨t, ht⟩ := Int.le.dest hmet
  have hrest := walk_retreat hm hn hright (fun e' he' => hapart e' (by omega)) hinc
  obtain ⟨e', he', hrest⟩ := hrest.exists_behind (t := t) (by omega) (by omega)
  have hyt : retreat same m n e (k + (n - m)) - (k + (n - m)) + (n - m) + t
      = reach same m n (e + 1) k - k := by omega
  rw [ht, hyt] at hrest
  split
  · exact ⟨e + 1, 0, e', hwalk.trans hone, hslides, hrest, fun E' hE' => by
      have := hmin E' hE'
      omega⟩
  · next hne =>
    have hne := not_not.mp hne
    refine ⟨e, 1, e', hwalk, ?_, hrest, fun E' hE' => by
      have := hmin E' hE'
      omega⟩
    rw [hne] at hone
    exact hone

/-- **The walk from the end** comes through the middle, and the one from the start gets there with
as many steps. -/
theorem FoundBackward.onShortest {kdForward : Column} {E : ℕ} (hE : Walk same 0 0 E m n)
    (hmin : ∀ E', Walk same 0 0 E' m n → E ≤ E') (hright : RightSteps same m n)
    (hapart : ∀ e < d, Apart same m n e)
    (hforward : ∀ k : ℤ, (d - k) % 2 = 0 → kdForward k = reach same m n d k)
    (h : FoundBackward same m n kdForward d box) : box.OnShortest same m n := by
  have hsteps := two_mul_le_of_apart hm hn hE hright hapart
  have hEpar := hE.bounds.2.2.2.2
  obtain ⟨c, prevX, prevY, x₀, hin, hfrom, heq⟩ := h
  obtain ⟨-, -, hstep, hlen, hslide, hzero, hprev⟩ := id hfrom
  obtain ⟨⟨hx, hx', hy, hy'⟩, heven, ⟨hlow, hhigh, hmet⟩, rfl⟩ := backwardMeets_eq_some heq
  obtain ⟨hc1, hc2, hpar, hc3, hc4⟩ := id hin
  have hle := slideUp_le same c (n - m) x₀
  have hslides : Walk same (retreat same m n d c) (retreat same m n d c - c + (n - m)) 0 x₀
      (x₀ - c + (n - m)) := by
    have hy : x₀ - c + (n - m)
        = x₀ - retreat same m n d c + (retreat same m n d c - c + (n - m)) := by omega
    rw [hy]
    refine walk_slide (hslide ▸ hle) fun z hz hlt => ?_
    have hz' : z - retreat same m n d c + (retreat same m n d c - c + (n - m))
      = z - c + (n - m) := by
      omega
    rw [hz']
    exact same_of_slideUp same c (n - m) x₀ (hslide.trans_le hz) hlt
  rw [hslide] at hle
  -- the walk from the start gets there
  have hink : InRange m n d (c - (n - m)) := ⟨by omega, by omega, by omega, by omega, by omega⟩
  rw [hforward _ (by omega)] at hmet
  obtain ⟨t, ht⟩ := Int.le.dest hmet
  obtain ⟨a, ha, hstart⟩ := (walk_reach same hm.le hn.le (add_pos hm hn) hink).exists_before
    (t := t) (by omega) (by omega)
  have hxt : reach same m n d (c - (n - m)) - t = retreat same m n d c := by omega
  have hyt : reach same m n d (c - (n - m)) - (c - (n - m)) - t
      = retreat same m n d c - c + (n - m) := by omega
  rw [hxt, hyt] at hstart
  -- from where it came it gets to the end
  have hrest : ∀ e, d = e + 1 → Walk same prevX prevY e m n := by
    intro e he
    obtain ⟨c', hprevX, hprevY⟩ := hprev e he
    unfold IsStep at hstep
    have hin' := @inRange_of_retreat same m n e c' hm.le hn.le (by omega)
    have hwalk := walk_retreat hm hn hright (fun e' he' => hapart e' (by omega)) hin'
    rwa [← hprevX, ← hprevY] at hwalk
  split
  · have hbehind : Walk same x₀ (x₀ - c + (n - m)) d m n := by
      cases d with
      | zero =>
        obtain ⟨rfl, rfl⟩ := hzero rfl
        rw [sub_zero, add_sub_cancel]
        exact Walk.refl
      | succ e =>
        rw [Nat.add_comm]
        exact (hstep.walk (hlen e.succ_ne_zero)).trans (hrest e rfl)
    exact ⟨a, 0, d, hstart, hslides, hbehind, fun E' hE' => by
      have := hmin E' hE'
      omega⟩
  · next hne =>
    have hne := not_not.mp hne
    have hd := hfrom.ne_zero hm hne ⟨hlow, hhigh⟩ fun hd hk => by
      rw [hne]
      rw [hk, hd] at hmet
      rwa [hd]
    obtain ⟨e, rfl⟩ : ∃ e, d = e + 1 := Nat.exists_eq_succ_of_ne_zero hd
    refine ⟨a, 1, e, hstart, ?_, hrest e rfl, fun E' hE' => by
      have := hmin E' hE'
      omega⟩
    rw [← hne]
    exact hstep.walk (hlen hd)

/-- **Where the walks meet** the middle lies on a shortest way. -/
theorem Meet.onShortest {E : ℕ} (hE : Walk same 0 0 E m n)
    (hmin : ∀ E', Walk same 0 0 E' m n → E ≤ E') (hright : RightSteps same m n)
    (h : Meet same m n d box) : box.OnShortest same m n := by
  obtain ⟨hapart, ⟨kdBackward, hback, h⟩ | ⟨kdForward, hforward, h⟩⟩ := h
  · exact h.onShortest hm hn hE hmin hright hapart hback
  · exact h.onShortest hm hn hE hmin hright hapart hforward

end

end Mirror

/-! ## The distance that is left -/

variable {root : DiffRoot} {state state' : DiffState} {box : DiffBox}

/-- **The edit distance** of two parts of the files. -/
def DiffRoot.distance (root : DiffRoot) (l leftCount r rightCount : ℕ) : ℕ :=
  leftCount + rightCount - 2 * lcs (fun i j => root.same (l + i) (r + j)) leftCount rightCount

/-- What a chunk removes and adds, or has to if it is not solved yet. -/
def DiffChunk.distance (root : DiffRoot) (c : DiffChunk) : ℕ :=
  if c.solved then c.edits else root.distance c.leftStart c.leftCount c.rightStart c.rightCount

/-- **What is removed and added** by all chunks of an algorithm, if what is left unsolved is solved
with as little as possible. -/
def DiffState.distance (root : DiffRoot) (state : DiffState) : ℕ :=
  chunkEdits state.result + (state.tempResult.map (DiffChunk.distance root)).sum

/-- The distance of a result grows by the distance of the chunk that is added. -/
theorem distance_addChunk (root : DiffRoot) (state : DiffState) (c : DiffChunk) :
    (diffStateAddChunk state c).distance root = state.distance root + c.distance root := by
  unfold diffStateAddChunk DiffState.distance
  split
  · rw [List.map_append, List.sum_append, ← Nat.add_assoc]
    rfl
  · next h =>
    obtain ⟨hsolved, -⟩ : c.solved = true ∧ state.tempResult = [] := by simpa using h
    dsimp only
    rw [chunkEdits_addSolvedChunk, DiffChunk.distance, if_pos hsolved, Nat.add_right_comm]

/-- The distance of a result grows by the distance of the section that is added. -/
theorem distance_addSection (root : DiffRoot) (state : DiffState) (l leftLen r rightLen : ℕ) :
    (diffStateAddSection state l leftLen r rightLen).distance root
      = state.distance root + root.distance l leftLen r rightLen := by
  unfold diffStateAddSection
  split
  · exact distance_addChunk root state _
  next hboth =>
  split
  · next hleft =>
    obtain rfl : rightLen = 0 := not_not.mp fun hne => hboth ⟨hleft, hne⟩
    rw [distance_addChunk, DiffChunk.distance, if_pos rfl,
      edits_solved _ _ _ _ (Or.inr (Or.inl rfl)),
      DiffRoot.distance, lcs_zero_right]
    omega
  next hleft =>
  obtain rfl := not_not.mp hleft
  have hzero : root.distance l 0 r rightLen = rightLen := by
    rw [DiffRoot.distance, lcs]
    omega
  rw [hzero]
  split
  · rw [distance_addChunk, DiffChunk.distance, if_pos rfl, edits_solved _ _ _ _ (Or.inl rfl)]
    omega
  · next hright => rw [not_not.mp hright, Nat.add_zero]

/-- **The edit distance of two parts** is the length of a shortest walk from where they begin. -/
theorem isLeast_distance (root : DiffRoot) (state : DiffState) (x y : ℕ) (i j : ℕ) :
    IsLeast {d | Walk (state.same root) x y d (x + i : ℕ) (y + j : ℕ)}
      (root.distance (state.left.start + x) i (state.right.start + y) j) := by
  have hsame : (fun a b : ℕ => (fun a b : ℤ => state.same root (a + x) (b + y)) a b)
      = fun a b => root.same (state.left.start + x + a) (state.right.start + y + b) := by
    funext a b
    have hx : state.left.start + ((a : ℤ) + x).toNat = state.left.start + x + a := by omega
    have hy : state.right.start + ((b : ℤ) + y).toNat = state.right.start + y + b := by omega
    show root.same _ _ = _
    rw [hx, hy]
  have hleast := isLeast_walk (fun a b : ℤ => state.same root (a + x) (b + y)) i j
  rw [hsame] at hleast
  constructor
  · have hwalk := hleast.1.shift (-x) (-y)
    simp only [sub_neg_eq_add, neg_add_cancel_right] at hwalk
    show Walk _ _ _ _ _ _
    rw [zero_add, zero_add, add_comm (i : ℤ), add_comm (j : ℤ)] at hwalk
    exact_mod_cast hwalk
  · intro d hwalk
    have hshift := Walk.shift hwalk x y
    rw [sub_self, sub_self] at hshift
    push_cast at hshift
    rw [add_sub_cancel_left, add_sub_cancel_left] at hshift
    exact hleast.2 hshift

/-- Within the middle there are as many steps as there are atoms without another one. -/
theorem DiffBox.Valid.exists_walk {same : ℤ → ℤ → Bool} {m n : ℤ} (h : box.Valid same m n) :
    Walk same box.leftStart box.rightStart
      ((box.leftEnd - box.leftStart) - (box.rightEnd - box.rightStart)).natAbs
      box.leftEnd box.rightEnd := by
  obtain ⟨⟨hl0, hl1, -⟩, ⟨hr0, hr1, -⟩, hslide⟩ := h
  obtain ⟨i, hi⟩ := Int.le.dest hl1
  obtain ⟨j, hj⟩ := Int.le.dest hr1
  by_cases hboth : i ≠ 0 ∧ j ≠ 0
  · obtain ⟨hlen, hsame⟩ := hslide (by omega) (by omega)
    have hzero : ((box.leftEnd - box.leftStart) - (box.rightEnd - box.rightStart)).natAbs = 0 := by
      omega
    have hy : box.rightEnd = box.leftEnd - box.leftStart + box.rightStart := by omega
    rw [hzero, hy]
    exact walk_slide hl1 hsame
  · have hcount : ((box.leftEnd - box.leftStart) - (box.rightEnd - box.rightStart)).natAbs
      = i + j := by
      omega
    rw [hcount, ← hi, ← hj]
    exact Walk.around same _ _ i j

/-- **On a shortest way** the parts before the middle and behind it have what is left of the edit
distance. -/
theorem DiffBox.OnShortest.distance_eq
    (hvalid : box.Valid (state.same root) state.left.len state.right.len)
    (h : box.OnShortest (state.same root) state.left.len state.right.len) :
    root.distance state.left.start box.leftStart.toNat state.right.start box.rightStart.toNat
        + ((box.leftEnd - box.leftStart) - (box.rightEnd - box.rightStart)).natAbs
        + root.distance (state.left.start + box.leftEnd.toNat) (state.left.len - box.leftEnd.toNat)
          (state.right.start + box.rightEnd.toNat) (state.right.len - box.rightEnd.toNat)
      = root.distance state.left.start state.left.len state.right.start state.right.len := by
  have hbefore := isLeast_distance root state 0 0 box.leftStart.toNat box.rightStart.toNat
  have hbehind := isLeast_distance root state box.leftEnd.toNat box.rightEnd.toNat
    (state.left.len - box.leftEnd.toNat) (state.right.len - box.rightEnd.toNat)
  have hwhole := isLeast_distance root state 0 0 state.left.len state.right.len
  have hmiddle := hvalid.exists_walk
  obtain ⟨⟨hl0, hl1, hl2⟩, ⟨hr0, hr1, hr2⟩, -⟩ := hvalid
  have hleft : box.leftEnd.toNat + (state.left.len - box.leftEnd.toNat) = state.left.len := by omega
  have hright : box.rightEnd.toNat + (state.right.len - box.rightEnd.toNat) = state.right.len := by
    omega
  simp only [Nat.cast_zero, Nat.zero_add, Nat.add_zero, hleft, hright, Int.toNat_of_nonneg hl0,
    Int.toNat_of_nonneg hr0, Int.toNat_of_nonneg (hl0.trans hl1),
    Int.toNat_of_nonneg (hr0.trans hr1)] at hbefore hbehind hwhole
  refine le_antisymm ?_ (hwhole.2 ((hbefore.1.trans hmiddle).trans hbehind.1))
  obtain ⟨a, b, e, ha, hb, he, hmin⟩ := h
  have h1 := hbefore.2 ha
  have h2 := hbehind.2 he
  have h3 := hmin _ hwhole.1
  have h4 := hb.bounds
  omega

/-! ## What `diff_algo_myers_divide` does -/

/-- Where the walks are allowed to get to. -/
def DiffState.maxEffort (state : DiffState) : ℕ :=
  Nat.max (shiftSqrt ((state.left.len + state.right.len) / 2)) diffEffortMin

/-- **The middle** that is found with an effort limit. -/
def DiffState.midpoint (root : DiffRoot) (state : DiffState) (maxEffort : ℕ) : Option DiffBox :=
  divideMidpoint (state.same root) state.left.len state.right.len maxEffort
    ((state.left.len + state.right.len) / 2 + 1) 0 (fun _ => -1) (fun _ => -1)

/-- **The effort limit is exceeded**: with a limit that is never reached the middle is another
one. -/
def DiffState.EffortExceeded (root : DiffRoot) (state : DiffState) : Prop :=
  state.midpoint root state.maxEffort
    ≠ state.midpoint root ((state.left.len + state.right.len) / 2 + 1)

/-- **The graph is divided on a shortest way**: the middle lies on one, and what the chunks remove
and add, if what is left unsolved is solved with as little as possible, is the edit distance. -/
structure DividesShortest (root : DiffRoot) (state : DiffState) : Prop where
  box : ∀ box, state.midpoint root state.maxEffort = some box →
    box.OnShortest (state.same root) state.left.len state.right.len
  distance : ∀ state', diffAlgoMyersDivide root state = (.ok, state') → state'.distance root
    = state.distance root
      + root.distance state.left.start state.left.len state.right.start state.right.len

/-- What the chunks remove and add. -/
theorem distance_diffAlgoMyersDivide
    (hvalid : ∀ box, state.midpoint root state.maxEffort = some box →
      box.Valid (state.same root) state.left.len state.right.len)
    (h : diffAlgoMyersDivide root state = (.ok, state')) :
    ∃ box, state.midpoint root state.maxEffort = some box
      ∧ state'.distance root = state.distance root
      + (root.distance state.left.start box.leftStart.toNat state.right.start box.rightStart.toNat
        + ((box.leftEnd - box.leftStart) - (box.rightEnd - box.rightStart)).natAbs
        + root.distance (state.left.start + box.leftEnd.toNat) (state.left.len - box.leftEnd.toNat)
          (state.right.start + box.rightEnd.toNat) (state.right.len - box.rightEnd.toNat)) := by
  unfold diffAlgoMyersDivide at h
  dsimp only at h
  split at h
  · cases h
  next box hbox =>
  refine ⟨box, hbox, ?_⟩
  obtain rfl := (Prod.mk.inj h).2
  obtain ⟨⟨hl0, hl1, hl2⟩, ⟨hr0, hr1, hr2⟩, hslide⟩ := hvalid box hbox
  rw [distance_addSection]
  split
  · have hcounts : box.leftEnd.toNat - box.leftStart.toNat = 0
        ∨ box.rightEnd.toNat - box.rightStart.toNat = 0
        ∨ box.leftEnd.toNat - box.leftStart.toNat = box.rightEnd.toNat - box.rightStart.toNat := by
      by_cases h : box.leftStart < box.leftEnd ∧ box.rightStart < box.rightEnd
      · have := (hslide h.1 h.2).1
        omega
      · omega
    rw [distance_addChunk, distance_addSection, DiffChunk.distance, if_pos rfl,
      edits_solved _ _ _ _ hcounts]
    omega
  · rw [distance_addSection]
    omega

/-- **If no step goes wrong** before the walks meet, the graph is divided on a shortest way. -/
theorem dividesShortest_of_rightSteps (hleft : state.left.len ≠ 0) (hright : state.right.len ≠ 0)
    (heffort : ¬state.EffortExceeded root)
    (hsteps : RightSteps (state.same root) state.left.len state.right.len) :
    DividesShortest root state := by
  have hm : (0 : ℤ) < state.left.len := by omega
  have hn : (0 : ℤ) < state.right.len := by omega
  have hleast := isLeast_distance root state 0 0 state.left.len state.right.len
  simp only [Nat.cast_zero, Nat.zero_add, Nat.add_zero] at hleast
  have hbox : ∀ box, state.midpoint root state.maxEffort = some box →
      box.OnShortest (state.same root) state.left.len state.right.len := by
    intro box hbox
    rw [not_not.mp heffort] at hbox
    rcases divideMidpoint_spec hm hn columns_zero
      (fun _ h => absurd h (Nat.not_lt_zero _)) hbox with
      ⟨e, hmeet⟩ | ⟨e, -, -, hlt, -, -, hapart, -⟩
    · exact hmeet.onShortest hm hn hleast.1 (fun E hE => hleast.2 hE) hsteps
    · -- so many steps are not made
      have := two_mul_le_of_apart hm hn hleast.1 hsteps (fun e' he' => hapart e' he'.le)
      have : root.distance state.left.start state.left.len state.right.start state.right.len
          ≤ state.left.len + state.right.len := Nat.sub_le _ _
      omega
  refine ⟨hbox, fun state' h => ?_⟩
  have hvalid := fun box (hmid : state.midpoint root state.maxEffort = some box) =>
    divideMidpoint_valid hm hn hmid
  obtain ⟨box, hmid, hdistance⟩ := distance_diffAlgoMyersDivide hvalid h
  rw [hdistance, (hbox box hmid).distance_eq (hvalid box hmid)]

/-- One line that is the first of five: the walks meet after two steps each. There are diagonals
below on which the walk from the end would go wrong, but it does not come to them any more. -/
theorem dividesShortest_one :
    DividesShortest ⟨[⟨1, [97]⟩],
      [⟨1, [97]⟩, ⟨1, [97]⟩, ⟨1, [97]⟩, ⟨1, [97]⟩, ⟨2, [98]⟩], false⟩
      ⟨[], [], ⟨0, 1⟩, ⟨0, 5⟩, 64⟩ := by
  refine dividesShortest_of_rightSteps (by decide) (by decide) (fun h => h (by decide +kernel)) ?_
  intro d c hin hnot
  by_cases hmet : 2 ≤ d + 1 ∧ (2 = d + 1 → c < 2)
  · exact absurd (hnot.backward (by decide) 2 hmet.1 2 hmet.2 (by decide) (by decide)
      (by decide +kernel) (by decide +kernel)) (by decide +kernel)
  · obtain ⟨h1, h2, hpar, -⟩ := hin
    obtain ⟨rfl, rfl⟩ | ⟨rfl, rfl⟩ | ⟨rfl, rfl⟩ : (d = 0 ∧ c = -1) ∨ (d = 0 ∧ c = 1)
        ∨ (d = 1 ∧ c = 2) := by
      omega
    · decide +kernel
    · decide +kernel
    · decide +kernel

/-- On the way from the end of `aaaaabb` and `bba` one gets to `(4, 0)` and to `(4, 2)` with two
steps. A step to the left comes to `(3, 0)`, where the walk from the start is after three steps, but
one upwards is taken, to `(4, 1)`. So the walks meet with the fourth step, where eight atoms are
removed and added, and six are enough. -/
theorem not_dividesShortest_late :
    ¬DiffState.EffortExceeded
        ⟨[⟨1, [97]⟩, ⟨1, [97]⟩, ⟨1, [97]⟩, ⟨1, [97]⟩, ⟨1, [97]⟩, ⟨2, [98]⟩, ⟨2, [98]⟩],
          [⟨2, [98]⟩, ⟨2, [98]⟩, ⟨1, [97]⟩], false⟩ ⟨[], [], ⟨0, 7⟩, ⟨0, 3⟩, 64⟩
      ∧ ¬DividesShortest
        ⟨[⟨1, [97]⟩, ⟨1, [97]⟩, ⟨1, [97]⟩, ⟨1, [97]⟩, ⟨1, [97]⟩, ⟨2, [98]⟩, ⟨2, [98]⟩],
          [⟨2, [98]⟩, ⟨2, [98]⟩, ⟨1, [97]⟩], false⟩ ⟨[], [], ⟨0, 7⟩, ⟨0, 3⟩, 64⟩ := by
  refine ⟨fun h => h (by decide +kernel), fun h => ?_⟩
  have hok : (diffAlgoMyersDivide
      ⟨[⟨1, [97]⟩, ⟨1, [97]⟩, ⟨1, [97]⟩, ⟨1, [97]⟩, ⟨1, [97]⟩, ⟨2, [98]⟩, ⟨2, [98]⟩],
        [⟨2, [98]⟩, ⟨2, [98]⟩, ⟨1, [97]⟩], false⟩ ⟨[], [], ⟨0, 7⟩, ⟨0, 3⟩, 64⟩).1 = .ok := by
    decide +kernel
  exact absurd (h.distance _ (Prod.ext hok rfl)) (by decide +kernel)

end Got
