import OpenFHE.Core.NumberTheory.IntVector
import OpenFHE.Core.NumberTheory.CoefficientLoops

/-!
# Products of polynomials

`PolynomialMultiplication` adds every product of two coefficients to the coefficient of its
degree, modulo the modulus.  What it returns is the polynomial of the products as words.
-/

namespace OpenFHE
namespace Core

open Foundation NativeInteger Polynomial

namespace IntVectorType

variable (T : IntVectorType)

/-- `PolynomialMultiplication`, modulo the modulus of the first vector. -/
def polynomialMultiplication (a b : IntVector) : Outcome IntVector := do
  let result <- productLoop (fun z x y => T.modAddEq z (T.mul x y) a.modulus) 0 a.data b.data
  return { data := result, modulus := a.modulus }

def MultiplicationRight (m la lb : Nat) : Prop :=
  forall (P Q : (ZMod m)[X]) (a b : IntVector), a.modulus = m -> a.getLength = la ->
    b.getLength = lb -> Coefficients (IsResidue m) P a.data ->
    Coefficients (IsResidue m) Q b.data ->
    exists r, T.polynomialMultiplication a b = .ok r ∧ r.modulus = m ∧
      r.getLength = la + lb - 1 ∧ Coefficients (IsResidue m) (P * Q) r.data

/-- A product as a word, in the ring of the residues. -/
def wordTerm (m x y : Nat) : ZMod m := (T.mul x y : Nat)

variable {T} {m : Nat} (hm : 0 < m) (hsums : SumsProducts T m)

include hsums

theorem wordTerm_added {P Q : (ZMod m)[X]} {a b : List Nat}
    (ha : Coefficients (IsResidue m) P a) (hb : Coefficients (IsResidue m) Q b) (v : ZMod m)
    (z x y : Nat) (hx : x ∈ a) (hy : y ∈ b) (hz : IsResidue m v z) :
    IsResidue m (v + T.wordTerm m x y) (T.modAddEq z (T.mul x y) m) := by
  unfold wordTerm
  rw [hsums.modAddEq hz.lt (coefficients_lt ha x hx) (coefficients_lt hb y hy), ← hz.cast,
    ← Nat.cast_add]
  exact isResidue_mod (Nat.zero_lt_of_lt hz.lt) _

include hm

theorem polynomialMultiplication_words {P Q : (ZMod m)[X]} {a b : List Nat} {modulus : Nat}
    (ha : Coefficients (IsResidue m) P a) (hb : Coefficients (IsResidue m) Q b)
    (hapos : 0 < a.length) (hbpos : 0 < b.length) (hlength : a.length + b.length <= 2 ^ 32) :
    exists r, T.polynomialMultiplication ⟨a, m⟩ ⟨b, modulus⟩ = .ok ⟨r, m⟩ ∧
      r.length = a.length + b.length - 1 ∧
      Coefficients (IsResidue m) (termProduct (T.wordTerm m) 0 a b a.length) r := by
  rcases productLoop_spec (wordTerm_added hsums ha hb) (isResidue_zero hm) hapos hbpos hlength
    with ⟨r, hrun, hresult, hcoeffs⟩
  refine ⟨r, ?_, hresult, hcoeffs⟩
  unfold polynomialMultiplication
  dsimp only
  rw [hrun]
  rfl

theorem products_of_multiplicationRight {la lb : Nat} (hla : 1 <= la) (hlb : 1 <= lb)
    (hlength : la + lb <= 2 ^ 32) (h : MultiplicationRight T m la lb) : ProductsRight T m := by
  intro x y hx hy
  have hP := constant_coefficients hx (la - 1)
  have hQ := constant_coefficients hy (lb - 1)
  have hPlength : (x :: List.replicate (la - 1) 0).length = la := by
    rw [List.length_cons, List.length_replicate]
    exact Nat.sub_add_cancel hla
  have hQlength : (y :: List.replicate (lb - 1) 0).length = lb := by
    rw [List.length_cons, List.length_replicate]
    exact Nat.sub_add_cancel hlb
  rcases h _ _ ⟨_, m⟩ ⟨_, m⟩ rfl hPlength hQlength hP hQ with ⟨r, hrun, _, _, hcoeffs⟩
  rcases polynomialMultiplication_words hm hsums hP hQ (Nat.succ_pos _) (Nat.succ_pos _)
    (by rw [hPlength, hQlength]; exact hlength) with ⟨data, hwords, hdatalength, hdata⟩
  rw [hwords] at hrun
  cases hrun
  have hpos : 0 < data.length := by
    rw [hdatalength, hPlength, hQlength]
    omega
  rcases hcoeffs.entry hpos with ⟨z, hz, hres⟩
  have hword := hdata.get 0 z hz
  rw [termProduct_coeff_zero (List.length_pos_of_mem List.mem_cons_self)
    (List.length_pos_of_mem List.mem_cons_self)] at hword
  rw [mul_coeff_zero, coeff_C_zero, coeff_C_zero] at hres
  exact hword.cast.symm.trans hres.cast

theorem multiplicationRight_iff {la lb : Nat} (hla : 1 <= la) (hlb : 1 <= lb)
    (halt : la < 2 ^ 32) (hblt : lb < 2 ^ 32) :
    MultiplicationRight T m la lb <-> la + lb <= 2 ^ 32 ∧ ProductsRight T m := by
  constructor
  · intro h
    have hlength : la + lb <= 2 ^ 32 := by
      by_contra hlong
      have hzeros (n : Nat) : Coefficients (IsResidue m) 0 (List.replicate n 0) :=
        coefficients_nil.append_replicate (isResidue_zero hm) n
      have hcount (n : Nat) : (List.replicate n 0).length = n := List.length_replicate
      rcases h 0 0 ⟨_, m⟩ ⟨_, m⟩ rfl (hcount la) (hcount lb) (hzeros la) (hzeros lb)
        with ⟨r, hrun, _⟩
      have hfail := productLoop_long (wordTerm_added hsums (hzeros la) (hzeros lb))
        (isResidue_zero hm) (by rwa [hcount]) (by rwa [hcount]) (by rwa [hcount])
        (by rw [hcount, hcount]; exact not_le.mp hlong)
      unfold polynomialMultiplication at hrun
      dsimp only at hrun
      rw [hfail] at hrun
      cases hrun
    exact ⟨hlength, products_of_multiplicationRight hm hsums hla hlb hlength h⟩
  · rintro ⟨hlength, hprod⟩ P Q ⟨a, modulus⟩ ⟨b, modulus'⟩ rfl rfl rfl hP hQ
    rcases polynomialMultiplication_words hm hsums hP hQ hla hlb hlength
      with ⟨r, hrun, hresult, hcoeffs⟩
    rw [termProduct_eq _ hP hQ] at hcoeffs
    · exact ⟨_, hrun, rfl, hresult, hcoeffs⟩
    · intro u v x y hx hy
      rw [← hx.cast, ← hy.cast]
      exact hprod x y hx.lt hy.lt

end IntVectorType
end Core
end OpenFHE
