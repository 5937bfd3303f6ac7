import OpenFHE.Foundation.NegacyclicNorm
import OpenFHE.Hal.Rescale
import OpenFHE.Scheme.Relinearization

/-!
# Decryption polynomials

The integers that a decryption stands for.  Where every element of a ciphertext is divided, its
decryption polynomial is divided too, up to an error that the secret bounds.
-/

namespace OpenFHE
namespace Scheme

open OpenFHE.Core Foundation Hal Polynomial

/-! ## Integer polynomials -/

section Integers

/-- The sum of the elements times the powers of the secret `σ`, modulo `X ^ n + 1`. -/
noncomputable def decryptionPoly (n : Nat) (σ : Nat -> Int) : List (Nat -> Int) -> Nat -> Int
  | [] => fun _ => 0
  | x :: xs => fun r => x r + negacyclicMul n (decryptionPoly n σ xs) σ r

def secretNorm (n : Nat) (σ : Nat -> Int) : Int := ∑ j ∈ Finset.range n, |σ j|

/-- How much an error of one in each of `l` elements can change a decryption. -/
def errorBound (n : Nat) (σ : Nat -> Int) : Nat -> Int
  | 0 => 0
  | l + 1 => 1 + errorBound n σ l * secretNorm n σ

variable {n : Nat} {σ : Nat -> Int}

theorem secretNorm_nonneg : 0 <= secretNorm n σ :=
  Finset.sum_nonneg fun j _ => abs_nonneg (σ j)

theorem errorBound_nonneg (l : Nat) : 0 <= errorBound n σ l := by
  induction l with
  | zero => exact le_refl 0
  | succ l ih => exact add_nonneg zero_le_one (mul_nonneg ih secretNorm_nonneg)

theorem decryptionPoly_dividedBy {t P : Nat} {xs ys : List (Nat -> Int)}
    (h : List.Forall₂ (DCRTPoly.DividedBy t P) xs ys) :
    exists E : Nat -> Int,
      (forall r, (P : Int) * decryptionPoly n σ ys r = decryptionPoly n σ xs r + t * E r) ∧
      forall r, r < n -> |E r| <= P * errorBound n σ xs.length := by
  induction h with
  | nil =>
      refine ⟨fun _ => 0, ?_, ?_⟩
      · intro r
        simp only [decryptionPoly, mul_zero, add_zero]
      · intro r _
        rw [abs_zero, List.length_nil, errorBound, mul_zero]
  | @cons x y xs ys hxy _ ih =>
      rcases ih with ⟨E, hE, hbound⟩
      choose delta hdelta hlt using hxy
      refine ⟨fun r => delta r + negacyclicMul n E σ r, ?_, ?_⟩
      · intro r
        have hsum : negacyclicMul n (fun i => (P : Int) * decryptionPoly n σ ys i) σ r =
            negacyclicMul n (fun i => decryptionPoly n σ xs i + t * E i) σ r :=
          congrArg (fun f => negacyclicMul n f σ r) (funext hE)
        rw [negacyclicMul_mul_left, negacyclicMul_add_left, negacyclicMul_mul_left] at hsum
        simp only [decryptionPoly]
        linear_combination hdelta r + hsum
      · intro r hr
        have hmul := abs_negacyclicMul_le E σ hbound hr
        have hdel := (hlt r).le
        calc
          |delta r + negacyclicMul n E σ r| <= |delta r| + |negacyclicMul n E σ r| :=
            abs_add_le _ _
          _ <= P + P * errorBound n σ xs.length * ∑ j ∈ Finset.range n, |σ j| :=
            add_le_add hdel hmul
          _ = P * errorBound n σ (x :: xs).length := by
            rw [List.length_cons, errorBound, secretNorm]
            ring

end Integers

/-! ## Decryption -/

section Decryption

variable {k : Nat} {psi : Nat -> Nat} {cache : Poly.TableCache} {moduli : List Nat}

abbrev EncodesAll (k : Nat) (psi : Nat -> Nat) (format : Format) (moduli : List Nat)
    (xs : List (Nat -> Int)) (cv : List DCRTPoly) : Prop :=
  List.Forall₂ (DCRTPoly.Encodes k psi format moduli) xs cv

theorem EncodesAll.exists_polynomial (hready : DCRTPoly.ReadyChain cache k psi moduli)
    {xs : List (Nat -> Int)} {cv : List DCRTPoly} (σ : Nat -> Int)
    (h : EncodesAll k psi .EVALUATION moduli xs cv) :
    exists A : TowerResidues[X], Elements (2 ^ k) moduli A cv ∧
      forall S : TowerResidues, (forall i q, moduli[i]? = some q -> forall r, r < 2 ^ k ->
          S i q r = DCRTPoly.inFormat k psi .EVALUATION (DCRTPoly.integerResidues σ) i q r) ->
        forall i q, moduli[i]? = some q -> forall r, r < 2 ^ k -> A.eval S i q r =
          DCRTPoly.inFormat k psi .EVALUATION
            (DCRTPoly.integerResidues (decryptionPoly (2 ^ k) σ xs)) i q r := by
  induction h with
  | nil =>
      refine ⟨0, ⟨?_, fun j _ => coeff_zero j⟩, ?_⟩
      · intro j x hx
        cases hx
      · intro S _ i q _ r _
        rw [eval_zero]
        show (0 : ZMod q) = stageArray (fun j => ((0 : Int) : ZMod q)) (psi q : ZMod q) 1 k r
        rw [stageArray_last]
        apply (Finset.sum_eq_zero _).symm
        intro c _
        rw [Int.cast_zero, zero_mul]
  | @cons x c xs cv hxc _ ih =>
      rcases ih with ⟨A, hA, heval⟩
      let v := DCRTPoly.inFormat k psi .EVALUATION (DCRTPoly.integerResidues x)
      refine ⟨C v + X * A, ⟨?_, ?_⟩, ?_⟩
      · intro j y hy
        cases j with
        | zero =>
            cases hy
            rw [coeff_add, coeff_C_zero, coeff_X_mul_zero, add_zero]
            exact hxc
        | succ j =>
            rw [coeff_add, coeff_C_succ, zero_add, coeff_X_mul]
            exact hA.get j y hy
      · intro j hj
        rw [List.length_cons] at hj
        rcases Nat.exists_eq_add_of_le' (show 1 <= j by omega) with ⟨j', rfl⟩
        rw [coeff_add, coeff_C_succ, zero_add, coeff_X_mul]
        exact hA.coeff_eq_zero j' (by omega)
      · intro S hS i q hq r hr
        have hmem := List.mem_of_getElem? hq
        have hnontrivial : Nontrivial (ZMod q) :=
          ZMod.nontrivial_iff.mpr (hready q hmem).modulus.one_lt.ne'
        rw [eval_add, eval_C, eval_mul, eval_X]
        show v i q r + S i q r * A.eval S i q r = _
        rw [heval S hS i q hq r hr, hS i q hq r hr]
        have hproduct : DCRTPoly.inFormat k psi .EVALUATION (DCRTPoly.integerResidues
              (negacyclicMul (2 ^ k) (decryptionPoly (2 ^ k) σ xs) σ)) i q r =
            DCRTPoly.inFormat k psi .EVALUATION (DCRTPoly.integerResidues σ) i q r *
              DCRTPoly.inFormat k psi .EVALUATION
                (DCRTPoly.integerResidues (decryptionPoly (2 ^ k) σ xs)) i q r := by
          have hmul := Transform.stageArray_negacyclicMul (hready q hmem).root
            (fun j => (decryptionPoly (2 ^ k) σ xs j : ZMod q)) (fun j => (σ j : ZMod q)) r
          have hcast : (fun j =>
              ((negacyclicMul (2 ^ k) (decryptionPoly (2 ^ k) σ xs) σ j : Int) : ZMod q)) =
              negacyclicMul (2 ^ k) (fun j => (decryptionPoly (2 ^ k) σ xs j : ZMod q))
                (fun j => (σ j : ZMod q)) := by
            funext j
            exact map_negacyclicMul (Int.castRingHom (ZMod q)) (Nat.two_pow_pos k) _ _ j
          show stageArray (fun j => ((negacyclicMul (2 ^ k) (decryptionPoly (2 ^ k) σ xs) σ j : Int) :
            ZMod q)) (psi q : ZMod q) 1 k r = _
          rw [hcast, <- hmul, mul_comm]
          rfl
        have hadd := @DCRTPoly.inFormat_add_mul k psi .EVALUATION x
          (negacyclicMul (2 ^ k) (decryptionPoly (2 ^ k) σ xs) σ) 1 i q r
        rw [Int.cast_one, one_mul, hproduct] at hadd
        rw [<- hadd]
        simp only [one_mul, decryptionPoly]

theorem EncodesAll.wellFormed {format : Format} {xs : List (Nat -> Int)} {cv : List DCRTPoly}
    (h : EncodesAll k psi format moduli xs cv) {c : DCRTPoly} (hc : c ∈ cv) :
    DCRTPoly.WellFormed (2 ^ k) format moduli c := by
  induction h with
  | nil => cases hc
  | @cons x y xs cv hxy _ ih =>
      rcases List.mem_cons.mp hc with rfl | hmem
      · exact DCRTPoly.Denotes.wellFormed hxy
      · exact ih hmem

theorem EncodesAll.decryptCore {moduliQ : List Nat}
    (hready : DCRTPoly.ReadyChain cache k psi moduliQ) {l : Nat} (hl : l < moduliQ.length)
    {s : DCRTPoly} {σ : Nat -> Int}
    (hs : DCRTPoly.Encodes k psi .EVALUATION moduliQ σ s) {xs : List (Nat -> Int)}
    {cv : List DCRTPoly} (h : EncodesAll k psi .EVALUATION (moduliQ.take (l + 1)) xs cv)
    (hne : cv ≠ []) :
    exists b, decryptCore cache s cv = some b ∧ DCRTPoly.Encodes k psi .EVALUATION
      (moduliQ.take (l + 1)) (decryptionPoly (2 ^ k) σ xs) b := by
  have hready' : DCRTPoly.ReadyChain cache k psi (moduliQ.take (l + 1)) :=
    fun q hq => hready q (List.mem_of_mem_take hq)
  rcases h.exists_polynomial hready' σ with ⟨A, hA, heval⟩
  have hself : EvaluationForm cache _ cv cv := evaluationForm_self fun c hc => h.wellFormed hc
  rw [List.length_take, Nat.min_eq_left hl] at hself
  rcases decryptCore_spec (fun q hq => (hready q hq).modulus) hl (DCRTPoly.Denotes.wellFormed hs)
    hself hA (List.length_pos_iff.mpr hne) with ⟨b, hb, hden⟩
  refine ⟨b, hb, hden.congr ?_⟩
  apply heval
  intro i q hq r hr
  rw [List.getElem?_take_of_lt (by
    have hlt := (List.getElem?_eq_some_iff.mp hq).1
    rw [List.length_take] at hlt
    omega)] at hq
  exact hs.value_eq i q hq r hr

theorem encodes_modEq (hk : 0 < k) (hk31 : k <= 31)
    (hready : DCRTPoly.ReadyChain cache k psi moduli) (hcoprime : moduli.Pairwise Nat.Coprime)
    {format : Format} {x y : Nat -> Int} {a : DCRTPoly}
    (hx : DCRTPoly.Encodes k psi format moduli x a)
    (hy : DCRTPoly.Encodes k psi format moduli y a) {r : Nat} (hr : r < 2 ^ k) :
    (moduli.prod : Int) ∣ x r - y r := by
  rcases hx.interpolation_eq hk hk31 hready hcoprime with ⟨p, hp, _, hvalue⟩
  rcases hy.interpolation_eq hk hk31 hready hcoprime with ⟨p', hp', _, hvalue'⟩
  cases hp.symm.trans hp'
  exact Int.ModEq.dvd ((hvalue' r hr).symm.trans (hvalue r hr))

end Decryption

end Scheme
end OpenFHE
