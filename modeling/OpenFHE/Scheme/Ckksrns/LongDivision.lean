import OpenFHE.Scheme.Ckksrns.Coefficients
import OpenFHE.Foundation.ChebyshevSeries

/-!
# Long division

`LongDivisionPoly` divides polynomials in the powers of the variable,
`LongDivisionChebyshev` in the Chebyshev polynomials, where the coefficient of `T_0`
is stored doubled.  A thrown exception and a loop that does not end are `none`.
-/

namespace OpenFHE
namespace Scheme
namespace Ckksrns

open Foundation
open Polynomial

attribute [local instance] two_atLeastTwo

structure LongDiv (F : Type _) where
  q : List F
  r : List F
deriving DecidableEq, Repr

/-- The variables of the loop: the degree of the rest, the quotient and the rest. -/
structure DivisionState (F : Type _) where
  n : Nat
  q : List F
  r : List F

variable {F : Type _} [Field F] [DecidableEq F]

/-- `f -= d`, after which the rest is cut behind its degree. -/
def subtract (s : DivisionState F) (q d : List F) : Option (DivisionState F) := do
  let r := List.zipWith (· - ·) s.r d
  if 1 < r.length then
    let n <- degree r
    return { n := n, q := q, r := resize r (n + 1) }
  else
    return { n := s.n, q := q, r := r }

def longDivisionPolyStep (g : List F) (k : Nat) (s : DivisionState F) :
    Option (DivisionState F) := do
  let back <- s.r.getLast?
  let gk <- g[k]?
  let gback <- g.getLast?
  let qnk := if gk ≠ 1 then back / gback else back
  let d := (List.replicate (s.n - k) 0 ++ g).map fun v => v * qnk
  let q <- assign s.q (s.n - k) qnk
  subtract s q d

def longDivisionPoly (f g : List F) : Option (LongDiv F) := do
  let n <- degree f
  if n ≠ f.length - 1 then none
  else
    let k <- degree g
    if k ≠ g.length - 1 then none
    else if n < k then return { q := [0], r := f }
    else
      let s <- whileFuel (fun s => decide (k <= s.n)) (longDivisionPolyStep g k) (n + 2)
        { n := n, q := List.replicate (n - k + 1) 0, r := f }
      return { q := s.q, r := s.r }

def chebyshevEntry {R : Type _} [CommRing R] (g : List R) (k n i : Nat) : Option R :=
  if k = n - k then
    if i = 0 then (g[n - k]?).map fun v => 2 * v
    else g[((n : Int) - k - i).natAbs]?
  else if k > n - k then
    if i = 0 then (g[n - k]?).map fun v => 2 * v
    else if i < k - (n - k) + 1 then do
      let low <- g[((n : Int) - k - i).natAbs]?
      let high <- g[n - k + i]?
      return low + high
    else g[((i : Int) - n + k).natAbs]?
  else
    if i = n - k then g.head?
    else if n - 2 * k <= i then g[((i : Int) - n + k).natAbs]?
    else some 0

/-- `d *= f[n]` and `d /= g[k]`, where these are not one. -/
def scale (back gback : F) (d : List F) : List F :=
  let d := if back ≠ 1 then d.map fun v => v * back else d
  if gback ≠ 1 then d.map fun v => v / gback else d

def longDivisionChebyshevStep (g : List F) (k : Nat) (s : DivisionState F) :
    Option (DivisionState F) := do
  let back <- s.r.getLast?
  let gk <- g[k]?
  let gback <- g.getLast?
  let qnk := if gk ≠ 1 then 2 * back / gback else 2 * back
  let q <- assign s.q (s.n - k) qnk
  let d <- (List.range (s.n + 1)).mapM (chebyshevEntry g k s.n)
  subtract s q (scale back gback d)

/-- The last step, for a rest of the degree of the divisor. -/
def longDivisionChebyshevLast (g : List F) (k : Nat) (s : DivisionState F) :
    Option (DivisionState F) :=
  if s.n = k then do
    let back <- s.r.getLast?
    let gback <- g.getLast?
    let q <- assign s.q 0 (if gback ≠ 1 then back / gback else back)
    subtract s q (scale back gback g)
  else some s

def longDivisionChebyshev (f g : List F) : Option (LongDiv F) := do
  let n <- degree f
  if n ≠ f.length - 1 then none
  else
    let k <- degree g
    if k ≠ g.length - 1 then none
    else if n < k then return { q := [0], r := f }
    else
      let s <- whileFuel (fun s => decide (k < s.n)) (longDivisionChebyshevStep g k) (n + 2)
        { n := n, q := List.replicate (n - k + 1) 0, r := f }
      let s <- longDivisionChebyshevLast g k s
      let front <- s.q.head?
      let q <- assign s.q 0 (front * 2)
      return { q := q, r := s.r }

/-!
## One step of a division

A step subtracts a multiple of the divisor that has the leading term of the rest.
-/

theorem subtract_spec {s : DivisionState F} {d : List F} (q : List F) (hn : 0 < s.n)
    (hr : s.r.length = s.n + 1) (hd : d.length = s.n + 1)
    (htop : d.getD s.n 0 = s.r.getD s.n 0) :
    exists s', subtract s q d = some s' ∧ s'.q = q ∧ s'.n < s.n ∧
      s'.r.length = s'.n + 1 ∧ (s'.n = 0 ∨ s'.r.getD s'.n 0 ≠ 0) ∧
      forall i, s'.r.getD i 0 = s.r.getD i 0 - d.getD i 0 := by
  generalize hz : List.zipWith (fun x y => x - y) s.r d = z
  have hzlen : z.length = s.n + 1 := by
    rw [<- hz, List.length_zipWith, hr, hd, Nat.min_self]
  have hzget : forall i, z.getD i 0 = s.r.getD i 0 - d.getD i 0 := by
    intro i
    by_cases hi : i < s.n + 1
    · rw [<- hz, List.getD_eq_getElem?_getD, List.getElem?_zipWith,
        getElem?_eq_getD (by omega), getElem?_eq_getD (by omega)]
      rfl
    · rw [List.getD_eq_default z 0 (by omega), List.getD_eq_default s.r 0 (by omega),
        List.getD_eq_default d 0 (by omega), sub_zero]
  rcases degree_spec (c := z) (List.ne_nil_of_length_pos (by omega)) with
    ⟨n, hdegree, hlt, habove, hlast⟩
  have hbelow : n < s.n := by
    by_contra hge
    have heq : n = s.n := by omega
    cases hlast with
    | inl hzero => omega
    | inr hne => exact hne (by rw [hzget, heq, htop, sub_self])
  have hresize : forall i, (resize z (n + 1)).getD i 0 = z.getD i 0 := by
    intro i
    rw [getD_resize]
    by_cases hi : i < n + 1
    · rw [if_pos hi]
    · rw [if_neg hi, habove i (by omega)]
  refine ⟨{ n := n, q := q, r := resize z (n + 1) }, ?_, rfl, hbelow, length_resize _ _, ?_,
    fun i => (hresize i).trans (hzget i)⟩
  · unfold subtract
    simp only [hz, hzlen, if_pos (show 1 < s.n + 1 by omega), hdegree]
    rfl
  · rw [hresize]
    exact hlast

structure DivisionInvariant (B : Polynomial.Sequence F) (f g : List F)
    (s : DivisionState F) : Prop where
  rest_length : s.r.length = s.n + 1
  rest_top : s.n = 0 ∨ s.r.getD s.n 0 ≠ 0
  bound : s.n < f.length
  quotient_length : s.q.length + g.length = f.length + 1
  quotient_zero : forall i, i + g.length <= s.n + 1 -> s.q.getD i 0 = 0
  identity : series B f = series B s.q * series B g + series B s.r

omit [DecidableEq F] in
theorem DivisionInvariant.init (B : Polynomial.Sequence F) {f g : List F} {n k : Nat}
    (hf : f.length = n + 1) (hftop : f.getD n 0 ≠ 0) (hg : g.length = k + 1) (hkn : k <= n) :
    DivisionInvariant B f g { n := n, q := List.replicate (n - k + 1) 0, r := f } := by
  have hzero : forall i, (List.replicate (n - k + 1) (0 : F)).getD i 0 = 0 := by
    intro i
    rw [List.getD_eq_getElem?_getD, List.getElem?_replicate]
    split <;> rfl
  constructor
  · exact hf
  · exact Or.inr hftop
  · exact hf ▸ Nat.lt_succ_self n
  · simp only [List.length_replicate]
    omega
  · intro i _
    exact hzero i
  · rw [series_single B (n := 0) (fun i _ => hzero i), hzero]
    simp

theorem DivisionInvariant.step {B : Polynomial.Sequence F} {f g : List F}
    {s : DivisionState F} (hinv : DivisionInvariant B f g s) {k : Nat}
    (hg : g.length = k + 1) (hk : k <= s.n) (hn : 0 < s.n) {v : F} {q d : List F}
    (hqlen : q.length = s.q.length)
    (hq : forall i, q.getD i 0 = if i = s.n - k then v else s.q.getD i 0)
    (hdlen : d.length = s.n + 1) (hdtop : d.getD s.n 0 = s.r.getD s.n 0)
    (hd : series B d = C v * B (s.n - k) * series B g) :
    exists s', subtract s q d = some s' ∧ DivisionInvariant B f g s' ∧ s'.n < s.n ∧
      s'.q = q := by
  rcases subtract_spec q hn hinv.rest_length hdlen hdtop with
    ⟨s', hs', hsq, hlt, hrlen, hrtop, hr⟩
  refine ⟨s', hs', ?_, hlt, hsq⟩
  have hbound := hinv.bound
  constructor
  · exact hrlen
  · exact hrtop
  · omega
  · rw [hsq, hqlen]
    exact hinv.quotient_length
  · intro i hi
    rw [hsq, hq, if_neg (by omega)]
    exact hinv.quotient_zero i (by omega)
  · have hquotient : series B q = series B s.q + C v * B (s.n - k) := by
      apply series_add_single
      intro i
      rw [hq]
      by_cases hi : i = s.n - k
      · rw [if_pos hi, if_pos hi, hinv.quotient_zero i (by omega), zero_add]
      · rw [if_neg hi, if_neg hi, add_zero]
    have hrest : series B s'.r = series B s.r - series B d := by
      rw [series_linear B 1 (-1) (c := s.r) (d := d) (e := s'.r)
        (fun i => by rw [hr i]; ring)]
      simp only [C_1, C_neg]
      ring
    rw [hinv.identity, hsq, hquotient, hrest, hd]
    ring

/-!
## Division in the powers of the variable
-/

structure Divides (B : Polynomial.Sequence F) (f g : List F) (res : LongDiv F) : Prop where
  identity : series B f = series B res.q * series B g + series B res.r
  quotient_length : res.q.length + g.length = f.length + 1
  rest_nonempty : res.r ≠ []
  rest_length : res.r.length < g.length

/-- A division that fails for a leading coefficient of zero and otherwise divides. -/
structure IsLongDivision (B : Polynomial.Sequence F)
    (division : List F -> List F -> Option (LongDiv F)) : Prop where
  throws : forall {f : List F} (g : List F) {n : Nat}, f.length = n + 2 ->
    f.getD (n + 1) 0 = 0 -> division f g = none
  divides : forall {f g : List F} {n k : Nat}, f.length = n + 1 -> f.getD n 0 ≠ 0 ->
    g.length = k + 1 -> g.getD k 0 ≠ 0 -> 0 < k -> k <= n ->
    exists res, division f g = some res ∧ Divides B f g res

omit [DecidableEq F] in
theorem DivisionInvariant.divides {B : Polynomial.Sequence F} {f g : List F}
    {s : DivisionState F} (hinv : DivisionInvariant B f g s) (hlt : s.n + 1 < g.length) :
    Divides B f g { q := s.q, r := s.r } := by
  constructor
  · exact hinv.identity
  · exact hinv.quotient_length
  · exact List.ne_nil_of_length_pos (hinv.rest_length ▸ Nat.succ_pos s.n)
  · rw [hinv.rest_length]
    exact hlt

noncomputable def powerBasis (F : Type _) [Field F] : Polynomial.Sequence F where
  elems' n := X ^ n
  degree_eq' := degree_X_pow

omit [DecidableEq F] in
theorem series_shift (g : List F) (j : Nat) (v : F) :
    series (powerBasis F) ((List.replicate j 0 ++ g).map fun c => c * v) =
      C v * powerBasis F j * series (powerBasis F) g := by
  have hget : forall i, ((List.replicate j 0 ++ g).map fun c => c * v).getD i 0 =
      (List.replicate j 0 ++ g).getD i 0 * v := by
    intro i
    have hmap := List.getD_map (f := fun c => c * v) (l := List.replicate j 0 ++ g)
      (n := i) (d := 0)
    rwa [zero_mul] at hmap
  unfold series
  rw [List.length_map, List.length_append, List.length_replicate, Finset.sum_range_add,
    Finset.sum_eq_zero, zero_add, Finset.mul_sum]
  · apply Finset.sum_congr rfl
    intro i _
    rw [hget, List.getD_append_right _ _ _ _ (by simp), List.length_replicate,
      Nat.add_sub_cancel_left, C_mul]
    show C (g.getD i 0) * C v * X ^ (j + i) = C v * X ^ j * (C (g.getD i 0) * X ^ i)
    ring
  · intro i hi
    have hlt : i < j := Finset.mem_range.mp hi
    have hzero : (List.replicate j 0 ++ g).getD i 0 = 0 := by
      rw [List.getD_append _ _ _ _ (by simpa using hlt), List.getD_eq_getElem?_getD,
        List.getElem?_replicate, if_pos hlt]
      rfl
    rw [hget, hzero, zero_mul, C_0, zero_mul]

theorem longDivisionPolyStep_spec {f g : List F} {k : Nat} {s : DivisionState F}
    (hinv : DivisionInvariant (powerBasis F) f g s) (hg : g.length = k + 1)
    (hgtop : g.getD k 0 ≠ 0) (hk : k <= s.n) (hn : 0 < s.n) :
    exists s', longDivisionPolyStep g k s = some s' ∧
      DivisionInvariant (powerBasis F) f g s' ∧ s'.n < s.n := by
  have hbound := hinv.bound
  have hqlength := hinv.quotient_length
  generalize hv : (if g.getD k 0 ≠ 1 then s.r.getD s.n 0 / g.getD k 0
    else s.r.getD s.n 0) = v
  have hscale : g.getD k 0 * v = s.r.getD s.n 0 := by
    rw [<- hv]
    by_cases hone : g.getD k 0 = 1
    · rw [if_neg (not_not.mpr hone), hone, one_mul]
    · rw [if_pos hone, mul_div_cancel₀ _ hgtop]
  rcases assign_spec (v := s.q) (i := s.n - k) v (by omega) with ⟨q, hassign, hqlen, hq⟩
  have hdlen : ((List.replicate (s.n - k) 0 ++ g).map fun c => c * v).length = s.n + 1 := by
    rw [List.length_map, List.length_append, List.length_replicate, hg]
    omega
  have hdtop : ((List.replicate (s.n - k) 0 ++ g).map fun c => c * v).getD s.n 0 =
      s.r.getD s.n 0 := by
    have hmap := List.getD_map (f := fun c => c * v) (l := List.replicate (s.n - k) 0 ++ g)
      (n := s.n) (d := 0)
    rw [zero_mul] at hmap
    rw [hmap, List.getD_append_right _ _ _ _ (by simp), List.length_replicate,
      Nat.sub_sub_self hk, hscale]
  rcases hinv.step hg hk hn hqlen hq hdlen hdtop (series_shift g (s.n - k) v) with
    ⟨s', hs', hinv', hlt, -⟩
  refine ⟨s', ?_, hinv', hlt⟩
  unfold longDivisionPolyStep
  rw [getLast?_eq_getD hinv.rest_length, getElem?_eq_getD (show k < g.length by omega),
    getLast?_eq_getD hg]
  simp only [Option.bind_eq_bind, Option.bind_some, hv, hassign]
  exact hs'

theorem longDivisionPoly_spec : IsLongDivision (powerBasis F) longDivisionPoly := by
  constructor
  · intro f g n hlen hlast
    rcases degree_lt_of_last hlen hlast with ⟨d, hd, hle⟩
    unfold longDivisionPoly
    rw [hd, Option.bind_eq_bind, Option.bind_some, if_pos (by omega)]
  · intro f g n k hf hftop hg hgtop hk hkn
    rcases whileFuel_spec (c := fun s : DivisionState F => decide (k <= s.n))
      (f := longDivisionPolyStep g k) (DivisionInvariant (powerBasis F) f g) (fun s => s.n)
      (by
        intro s hinv hcond
        have hle : k <= s.n := of_decide_eq_true hcond
        rcases longDivisionPolyStep_spec hinv hg hgtop hle (by omega) with
          ⟨s', hs', hinv', hlt⟩
        exact ⟨s', hs', hinv', hlt⟩)
      (n + 2) _ (DivisionInvariant.init (powerBasis F) hf hftop hg hkn)
      (Nat.lt_add_of_pos_right (by decide)) with ⟨s, hs, hinv, hstop⟩
    have hlt : s.n < k := not_le.mp (of_decide_eq_false hstop)
    refine ⟨{ q := s.q, r := s.r }, ?_, hinv.divides (by omega)⟩
    unfold longDivisionPoly
    rw [degree_of_length hf hftop, degree_of_length hg hgtop]
    simp only [Option.bind_eq_bind, Option.bind_some]
    rw [if_neg (by omega), if_neg (by omega), if_neg (by omega), hs]
    rfl

/-!
## Division in the Chebyshev polynomials
-/

omit [Field F] [DecidableEq F] in
theorem chebyshevEntry_eq {R : Type _} [CommRing R] {g : List R} {k n i : Nat}
    (hg : g.length = k + 1) (hkn : k < n) (hi : i < n + 1) :
    chebyshevEntry g k n i =
      some (g.getD ((i : Int) - (n - k : Nat)).natAbs 0 + g.getD (i + (n - k)) 0) := by
  have hread : forall {a : Nat}, a <= k -> g[a]? = some (g.getD a 0) :=
    fun ha => getElem?_eq_getD (by omega)
  have hout : forall {a : Nat}, k < a -> g.getD a 0 = 0 :=
    fun ha => List.getD_eq_default g 0 (by omega)
  have hswap : ((n : Int) - k - i).natAbs = ((i : Int) - (n - k : Nat)).natAbs := by omega
  have hback : ((i : Int) - n + k).natAbs = ((i : Int) - (n - k : Nat)).natAbs := by omega
  unfold chebyshevEntry
  rw [hswap, hback]
  rcases Nat.lt_trichotomy k (n - k) with hlt | heq | hgt
  · rw [if_neg (by omega), if_neg (by omega)]
    by_cases hmid : i = n - k
    · rw [if_pos hmid, hmid, hout (show k < n - k + (n - k) by omega), add_zero, sub_self,
        List.head?_eq_getElem?, hread (Nat.zero_le k)]
      rfl
    · rw [if_neg hmid, hout (show k < i + (n - k) by omega), add_zero]
      by_cases hin : n - 2 * k <= i
      · rw [if_pos hin, hread (by omega)]
      · rw [if_neg hin, hout (by omega)]
  · rw [if_pos heq]
    by_cases hzero : i = 0
    · have hfront : ((i : Int) - (n - k : Nat)).natAbs = n - k := by omega
      rw [if_pos hzero, hread heq.ge, hfront, hzero, Nat.zero_add, <- two_mul]
      rfl
    · rw [if_neg hzero, hread (by omega), hout (show k < i + (n - k) by omega), add_zero]
  · rw [if_neg (by omega), if_pos hgt]
    by_cases hzero : i = 0
    · have hfront : ((i : Int) - (n - k : Nat)).natAbs = n - k := by omega
      rw [if_pos hzero, hread hgt.le, hfront, hzero, Nat.zero_add, <- two_mul]
      rfl
    · rw [if_neg hzero]
      by_cases hlow : i < k - (n - k) + 1
      · rw [if_pos hlow, hread (by omega), hread (by omega), Nat.add_comm (n - k) i]
        rfl
      · rw [if_neg hlow, hread (by omega), hout (show k < i + (n - k) by omega), add_zero]

theorem length_scale (back gback : F) (d : List F) : (scale back gback d).length = d.length := by
  unfold scale
  split <;> split <;> simp

theorem getD_scale (back gback : F) (d : List F) (i : Nat) :
    (scale back gback d).getD i 0 = back / gback * d.getD i 0 := by
  have hmap : forall (h : F -> F) (v : List F), h 0 = 0 ->
      (v.map h).getD i 0 = h (v.getD i 0) := by
    intro h v hzero
    have hget := List.getD_map (f := h) (l := v) (n := i) (d := 0)
    rwa [hzero] at hget
  unfold scale
  by_cases hback : back = 1 <;> by_cases hgback : gback = 1
  · simp [hback, hgback]
  · simp only [hback, hgback, ne_eq, not_true_eq_false, not_false_eq_true, if_true, if_false]
    rw [hmap _ _ (zero_div gback)]
    ring
  · simp only [hback, hgback, ne_eq, not_true_eq_false, not_false_eq_true, if_true, if_false]
    rw [hmap _ _ (zero_mul back)]
    ring
  · simp only [hback, hgback, ne_eq, not_false_eq_true, if_true]
    rw [hmap _ _ (zero_div gback), hmap _ _ (zero_mul back)]
    ring

theorem series_scale (B : Polynomial.Sequence F) (back gback : F) (d : List F) :
    series B (scale back gback d) = C (back / gback) * series B d := by
  have hlinear := series_linear B (back / gback) 0 (c := d) (d := d) (e := scale back gback d)
    (fun i => by rw [getD_scale]; ring)
  rw [hlinear, C_0, zero_mul, add_zero]

theorem quotient_term (back gback : F) :
    (if gback ≠ 1 then back / gback else back) = back / gback := by
  by_cases hone : gback = 1
  · rw [if_neg (not_not.mpr hone), hone, div_one]
  · rw [if_pos hone]

section Chebyshev

variable [NeZero (2 : F)]

theorem longDivisionChebyshevStep_spec {f g : List F} {k : Nat} {s : DivisionState F}
    (hinv : DivisionInvariant (chebyshevBasis F) f g s) (hg : g.length = k + 1)
    (hgtop : g.getD k 0 ≠ 0) (hk : k < s.n) (hfront : s.q.getD 0 0 = 0) :
    exists s', longDivisionChebyshevStep g k s = some s' ∧
      (DivisionInvariant (chebyshevBasis F) f g s' ∧ s'.q.getD 0 0 = 0) ∧ s'.n < s.n := by
  have hbound := hinv.bound
  have hqlength := hinv.quotient_length
  have hj : 0 < s.n - k := by omega
  have hsplit : s.n - k + (k + 1) = s.n + 1 := by omega
  rcases mapM_range_spec (n := s.n + 1) (f := chebyshevEntry g k s.n)
    (fun i v => v = g.getD ((i : Int) - (s.n - k : Nat)).natAbs 0 + g.getD (i + (s.n - k)) 0)
    (fun i hi => ⟨_, chebyshevEntry_eq hg hk hi, rfl⟩) with ⟨d, hd, hdlen, hdget⟩
  have hentry : forall i, i < s.n + 1 -> d.getD i 0 =
      g.getD ((i : Int) - (s.n - k : Nat)).natAbs 0 + g.getD (i + (s.n - k)) 0 := by
    intro i hi
    exact hdget i _ (getElem?_eq_getD (by omega))
  have htop : d.getD s.n 0 = g.getD k 0 := by
    have hindex : ((s.n : Int) - (s.n - k : Nat)).natAbs = k := by omega
    rw [hentry s.n (Nat.lt_succ_self _), hindex,
      List.getD_eq_default g 0 (show g.length <= s.n + (s.n - k) by omega), add_zero]
  generalize hback : s.r.getD s.n 0 = back
  generalize hgback : g.getD k 0 = gback at *
  have hterm : (if gback ≠ 1 then 2 * back / gback else 2 * back) = 2 * back / gback :=
    quotient_term (2 * back) gback
  rcases assign_spec (v := s.q) (i := s.n - k) (2 * back / gback) (by omega) with
    ⟨q, hassign, hqlen, hq⟩
  have hscaledlen : (scale back gback d).length = s.n + 1 := (length_scale _ _ _).trans hdlen
  have hscaledtop : (scale back gback d).getD s.n 0 = s.r.getD s.n 0 := by
    rw [getD_scale, htop, hback, div_mul_cancel₀ _ hgtop]
  have hseries : series (chebyshevBasis F) (scale back gback d) =
      C (2 * back / gback) * chebyshevBasis F (s.n - k) * series (chebyshevBasis F) g := by
    rw [series_scale, chebyshev_product hj hg (hdlen.trans hsplit.symm)
      (fun i hi => hentry i (hsplit ▸ hi)), mul_div_assoc, C_mul]
    ring
  rcases hinv.step hg hk.le (by omega) hqlen hq hscaledlen hscaledtop hseries with
    ⟨s', hs', hinv', hlt, hsq⟩
  refine ⟨s', ?_, ⟨hinv', ?_⟩, hlt⟩
  · unfold longDivisionChebyshevStep
    rw [getLast?_eq_getD hinv.rest_length, getElem?_eq_getD (show k < g.length by omega),
      getLast?_eq_getD hg, hback, hgback]
    simp only [Option.bind_eq_bind, Option.bind_some, hterm, hassign, hd]
    exact hs'
  · rw [hsq, hq, if_neg (by omega), hfront]

omit [NeZero (2 : F)] in
theorem subtract_quotient (s : DivisionState F) (q q' d : List F) :
    subtract s q' d = (subtract s q d).map fun s' => { s' with q := q' } := by
  unfold subtract
  by_cases hlen : 1 < (List.zipWith (fun x y => x - y) s.r d).length
  · simp only [if_pos hlen]
    cases degree (List.zipWith (fun x y => x - y) s.r d) <;> rfl
  · simp only [if_neg hlen]
    rfl

theorem longDivisionChebyshevLast_spec {f g : List F} {k : Nat} {s : DivisionState F}
    (hinv : DivisionInvariant (chebyshevBasis F) f g s) (hg : g.length = k + 1)
    (hgtop : g.getD k 0 ≠ 0) (hk : 0 < k) (hle : s.n <= k) (hkf : k < f.length)
    (hfront : s.q.getD 0 0 = 0) :
    exists s' front q, longDivisionChebyshevLast g k s = some s' ∧ s'.q.head? = some front ∧
      assign s'.q 0 (front * 2) = some q ∧
      Divides (chebyshevBasis F) f g { q := q, r := s'.r } := by
  have hqlength := hinv.quotient_length
  have hpos : 0 < s.q.length := by omega
  rcases Nat.lt_or_eq_of_le hle with hlt | heq
  · have hhead : s.q.head? = some 0 := by
      rw [List.head?_eq_getElem?, getElem?_eq_getD hpos, hfront]
    rcases assign_spec (v := s.q) (i := 0) ((0 : F) * 2) hpos with ⟨q, hassign, hqlen, hq⟩
    refine ⟨s, 0, q, if_neg (by omega), hhead, hassign, ?_⟩
    have hsame : series (chebyshevBasis F) q = series (chebyshevBasis F) s.q := by
      apply series_congr
      intro i
      rw [hq i]
      by_cases hi : i = 0
      · rw [if_pos hi, hi, hfront, zero_mul]
      · rw [if_neg hi]
    constructor
    · rw [hsame]
      exact hinv.identity
    · rw [hqlen]
      exact hqlength
    · exact List.ne_nil_of_length_pos (hinv.rest_length ▸ Nat.succ_pos s.n)
    · rw [hinv.rest_length]
      omega
  · generalize hback : s.r.getD s.n 0 = back
    generalize hgback : g.getD k 0 = gback at hgtop
    have hterm := quotient_term back gback
    rcases assign_spec (v := s.q) (i := 0) (back / gback) hpos with ⟨q₀, hassign₀, hqlen₀, hq₀⟩
    have hhead : q₀.head? = some (back / gback) := by
      rw [List.head?_eq_getElem?, getElem?_eq_getD (by omega), hq₀, if_pos rfl]
    rcases assign_spec (v := q₀) (i := 0) (back / gback * 2) (by omega) with
      ⟨q, hassign, hqlen, hq⟩
    have hqget : forall i, q.getD i 0 =
        if i = s.n - k then back / gback * 2 else s.q.getD i 0 := by
      intro i
      rw [hq i, heq, Nat.sub_self]
      by_cases hi : i = 0
      · rw [if_pos hi, if_pos hi]
      · rw [if_neg hi, if_neg hi, hq₀, if_neg hi]
    have hscaledlen : (scale back gback g).length = s.n + 1 := by
      rw [length_scale, hg, heq]
    have hscaledtop : (scale back gback g).getD s.n 0 = s.r.getD s.n 0 := by
      rw [getD_scale, hback, heq, hgback, div_mul_cancel₀ _ hgtop]
    have hseries : series (chebyshevBasis F) (scale back gback g) =
        C (back / gback * 2) * chebyshevBasis F (s.n - k) * series (chebyshevBasis F) g := by
      have hhalf : (C 2 * C 2⁻¹ : F[X]) = 1 := by
        rw [<- C_mul, mul_inv_cancel₀ two_ne_zero, C_1]
      rw [series_scale, heq, Nat.sub_self, chebyshevBasis_zero, C_mul]
      linear_combination (-C (back / gback) * series (chebyshevBasis F) g) * hhalf
    rcases hinv.step hg heq.ge (by omega) (hqlen.trans hqlen₀) hqget hscaledlen hscaledtop
      hseries with ⟨s', hs', hinv', hlt, hsq⟩
    refine ⟨{ s' with q := q₀ }, back / gback, q, ?_, hhead, hassign, ?_⟩
    · unfold longDivisionChebyshevLast
      rw [if_pos heq, getLast?_eq_getD hinv.rest_length, getLast?_eq_getD hg, hback, hgback]
      simp only [Option.bind_eq_bind, Option.bind_some, hterm, hassign₀]
      rw [subtract_quotient s q q₀, hs']
      rfl
    · have hdivides := hinv'.divides (show s'.n + 1 < g.length by omega)
      rw [hsq] at hdivides
      exact hdivides

theorem longDivisionChebyshev_spec : IsLongDivision (chebyshevBasis F) longDivisionChebyshev := by
  constructor
  · intro f g n hlen hlast
    rcases degree_lt_of_last hlen hlast with ⟨d, hd, hle⟩
    unfold longDivisionChebyshev
    rw [hd, Option.bind_eq_bind, Option.bind_some, if_pos (by omega)]
  · intro f g n k hf hftop hg hgtop hk hkn
    have hfront : (List.replicate (n - k + 1) (0 : F)).getD 0 0 = 0 := by
      rw [List.replicate_succ]
      rfl
    rcases whileFuel_spec (c := fun s : DivisionState F => decide (k < s.n))
      (f := longDivisionChebyshevStep g k)
      (fun s => DivisionInvariant (chebyshevBasis F) f g s ∧ s.q.getD 0 0 = 0) (fun s => s.n)
      (by
        intro s hinv hcond
        exact longDivisionChebyshevStep_spec hinv.1 hg hgtop (of_decide_eq_true hcond) hinv.2)
      (n + 2) _ ⟨DivisionInvariant.init (chebyshevBasis F) hf hftop hg hkn, hfront⟩
      (Nat.lt_add_of_pos_right (by decide)) with ⟨s, hs, ⟨hinv, hzero⟩, hstop⟩
    have hle : s.n <= k := not_lt.mp (of_decide_eq_false hstop)
    rcases longDivisionChebyshevLast_spec hinv hg hgtop hk hle (by omega) hzero with
      ⟨s', front, q, hlast, hhead, hassign, hdivides⟩
    refine ⟨{ q := q, r := s'.r }, ?_, hdivides⟩
    unfold longDivisionChebyshev
    rw [degree_of_length hf hftop, degree_of_length hg hgtop]
    simp only [Option.bind_eq_bind, Option.bind_some]
    rw [if_neg (by omega), if_neg (by omega), if_neg (by omega), hs]
    simp only [Option.bind_some, hlast, hhead, hassign]
    rfl

end Chebyshev

end Ckksrns
end Scheme
end OpenFHE
