import OpenFHE.BinFHE.LWEEncryption

/-!
# Decryption of fresh ciphertexts

`Decrypt` returns the message of a fresh ciphertext whose error is at most half a
step of the plaintext.  The divisibility checks that `Encrypt` and `Decrypt`
announce never fire.
-/

namespace OpenFHE
namespace BinFHE

open Core Foundation NativeInteger

namespace LWEEncryptionScheme

/-- The integers that `Decrypt` rounds to zero. -/
def RoundsToZero (p q : Nat) (e : Int) : Prop :=
  -((q / (2 * p) : Nat) : Int) <= e ∧ e < (q / (2 * p) : Nat)

/-- A message of the type `LWEPlaintext` that is not negative. -/
def IsMessage (m : Int) : Prop := 0 <= m ∧ m < 2 ^ 63

/-- Every ciphertext of `Encrypt` with a small error is decrypted to its message. -/
def RoundTrips (n p q : Nat) : Prop :=
  forall (old : Nat) (sk : NativeVectorT) (a : List Nat) (e m : Int),
    old < 2 ^ maxBits -> NativeVectorT.Valid n old sk -> Residues n q a ->
      RoundsToZero p q e -> IsMessage m ->
        (encrypt sk a (generateInteger e q) m p q >>= fun ct =>
          decrypt (some sk) (some ct) true p) = .ok (m % p)

/-- The same for `EncryptN`, where the combined error is small. -/
def RoundTripsN (n p q : Nat) : Prop :=
  forall (old : Nat) (sk : NativeVectorT) (A : List NativeVectorT) (v : NativeVectorT)
    (e sp a : List Nat) (noise : Nat) (m E : Int),
    old < 2 ^ maxBits -> NativeVectorT.Valid n old sk -> IsPublicKey n q sk A v e ->
      Residues n q e -> Residues n q sp -> Residues n q a -> noise < q ->
      (E : ZMod q) = noise + innerProduct q n sp e - maskProduct q n a sk ->
      RoundsToZero p q E -> IsMessage m ->
        (encryptN A v sp a noise m p q >>= fun ct =>
          decrypt (some sk) (some ct) true p) = .ok (m % p)

/-- `Encrypt` and `EncryptN` throw when `p` does not divide `q`. -/
def EncryptRefuses (n p q : Nat) : Prop :=
  (forall (old : Nat) (sk : NativeVectorT) (a : List Nat) (noise : Nat) (m : Int),
    old < 2 ^ maxBits -> NativeVectorT.Valid n old sk -> Residues n q a ->
      encrypt sk a noise m p q = .error (.thrown encryptMessage)) ∧
  forall (sk : NativeVectorT) (A : List NativeVectorT) (v : NativeVectorT)
    (e sp a : List Nat) (noise : Nat) (m : Int),
    IsPublicKey n q sk A v e -> Residues n q sp -> Residues n q a ->
      encryptN A v sp a noise m p q = .error (.thrown encryptMessage)

/-- `Decrypt` throws when `2 * p` does not divide `q`. -/
def DecryptRefuses (n p q : Nat) : Prop :=
  forall (old : Nat) (sk : NativeVectorT) (ct : LWECiphertextImpl),
    old < 2 ^ maxBits -> NativeVectorT.Valid n old sk -> NativeVectorT.Valid n q ct.m_a ->
      ct.m_b < q ->
        decrypt (some sk) (some ct) true p = .error (.thrown decryptMessage)

structure EncryptionLaw (n p q : Nat) : Prop where
  roundTrips : 2 * p ∣ q -> p * q < 2 ^ maxBits -> (n + 2) * q < 2 ^ maxBits ->
    RoundTrips n p q ∧ RoundTripsN n p q
  encryptRefuses : ¬ p ∣ q -> EncryptRefuses n p q
  decryptRefuses : ¬ 2 * p ∣ q -> DecryptRefuses n p q

/-!
## Rounding
-/

theorem headroom_of_lt {n q : Nat} (h : (n + 2) * q < 2 ^ maxBits) : Headroom q n 0 := by
  refine Or.inl (lt_of_le_of_lt ?_ h)
  calc
    0 + n * (q - 1) <= n * q := by rw [zero_add]; exact Nat.mul_le_mul_left n (Nat.sub_le q 1)
    _ <= (n + 2) * q := Nat.mul_le_mul_right q (by omega)

theorem decrypt_phase {n old p q : Nat} {sk : NativeVectorT}
    (hsk : NativeVectorT.Valid n old sk) (hold : old < 2 ^ maxBits) (hp : 0 < p) (hpos : 0 < q)
    (hlt : q < 2 ^ 60) (hdvd : 2 * p ∣ q) (hpq : p * q < 2 ^ maxBits)
    (hroom : (n + 2) * q < 2 ^ maxBits) {ct : LWECiphertextImpl}
    (hct : NativeVectorT.Valid n q ct.m_a) {body : ZMod q} (hb : Represents q body ct.m_b)
    {m E : Int} (hE : RoundsToZero p q E) (hm : IsMessage m)
    (hphase : body - maskProduct q n ct.m_a.data sk =
      (m.toNat % p : Nat) * (q / p : Nat) + E) :
    decrypt (some sk) (some ct) true p = .ok (m % p) := by
  rcases hdvd with ⟨k, rfl⟩
  have hk : 0 < k := Nat.pos_of_mul_pos_left hpos
  have hpq' : p <= 2 * p * k := by nlinarith
  have htwice : word (p * 2) = 2 * p := by
    rw [Nat.mul_comm, word_eq]
    calc
      2 * p <= 2 * p * k := Nat.le_mul_of_pos_right _ hk
      _ < 2 ^ maxBits := lt_trans hlt (by decide)
  rcases decrypt_spec (p := p) hsk hold hpos hlt (by omega) hct hb with ⟨r, hr, hrlt, hcast⟩
  have hcast := hcast (headroom_of_lt hroom)
  have hhalf : 2 * p * k / (2 * p) = k := Nat.mul_div_cancel_left k (by omega)
  have hstep : 2 * p * k / p = 2 * k := by
    rw [show 2 * p * k = p * (2 * k) by ring, Nat.mul_div_cancel_left _ hp]
  rw [htwice, hphase, hhalf, hstep] at hcast
  unfold RoundsToZero at hE
  rw [hhalf] at hE
  have hM : m.toNat % p < p := Nat.mod_lt _ hp
  have hround := round_phase hp hE.1 hE.2 hM hrlt (by rw [hcast]; push_cast; ring)
  have hprod : p * r < 2 ^ maxBits := lt_of_le_of_lt (Nat.mul_le_mul_left p hrlt.le) hpq
  rw [hr, mulFast, Nat.mul_comm r p, word_eq hprod, hround,
    signedWord_eq (by omega) (by omega)]
  congr 1
  have hmNat : ((m.toNat : Nat) : Int) = m := Int.toNat_of_nonneg hm.1
  rw [Int.natCast_mod, hmNat]

theorem roundTrips {n p q : Nat} (hp : 0 < p) (hpos : 0 < q) (hlt : q < 2 ^ 60)
    (hdvd : 2 * p ∣ q) (hpq : p * q < 2 ^ maxBits) (hroom : (n + 2) * q < 2 ^ maxBits) :
    RoundTrips n p q := by
  intro old sk a e m hold hsk ha he hm
  have hnoise : Represents q (e : ZMod q) (generateInteger e q) := by
    have hle := Nat.div_le_self q (2 * p)
    refine generateInteger_represents (lt_trans hlt (by decide)) ?_ ?_
    · exact le_trans (by omega) he.1
    · exact lt_of_lt_of_le he.2 (by omega)
  rcases encrypt_spec hsk hold hpos hlt hp hroom ha hnoise hm.1 hm.2 with
    ⟨ct, hct, hmask, _, hbody⟩
  rw [hct]
  refine decrypt_phase hsk hold hp hpos hlt hdvd hpq hroom ?_ hbody he hm ?_
  · rw [hmask]
    exact ⟨rfl, ha⟩
  · rw [hmask]
    ring

theorem roundTripsN {n p q : Nat} (hp : 0 < p) (hpos : 0 < q) (hlt : q < 2 ^ 60)
    (hne : n = 0 ∨ q ≠ 2 ^ 59) (hdvd : 2 * p ∣ q) (hpq : p * q < 2 ^ maxBits)
    (hroom : (n + 2) * q < 2 ^ maxBits) : RoundTripsN n p q := by
  intro old sk A v e sp a noise m E hold hsk hkey _ hsp ha hnoise hcombined hE hm
  rcases encryptN_spec hkey hpos hlt hne hp hsp ha hnoise hm.1 hm.2 with
    ⟨ct, hct, hmask, _, body, hbody, hphase⟩
  rw [hct]
  refine decrypt_phase hsk hold hp hpos hlt hdvd hpq hroom hmask hbody hE hm ?_
  rw [hphase, hcombined]

/-!
## Where the law fails
-/

theorem sizeMessage_ne (q : Nat) : NativeVectorT.sizeMessage q ≠ decryptMessage := by
  have hfirst (rest : String) : "Requested modulus' size " ++ rest ≠ decryptMessage := by
    intro h
    have hchar := congrArg (fun s : String => s.toList.head?) h
    simp [decryptMessage, String.toList_append] at hchar
  unfold NativeVectorT.sizeMessage
  rw [String.append_assoc, String.append_assoc, String.append_assoc]
  exact hfirst _

/-- The check of `Decrypt` never fires. -/
theorem decrypt_ne_refusal {n old p q : Nat} {sk : NativeVectorT}
    (hsk : NativeVectorT.Valid n old sk) (hold : old < 2 ^ maxBits) (hpos : 0 < q)
    {ct : LWECiphertextImpl} (hct : NativeVectorT.Valid n q ct.m_a) (hb : ct.m_b < q) :
    decrypt (some sk) (some ct) true p ≠ .error (.thrown decryptMessage) := by
  intro h
  by_cases htwice : word (p * 2) = 0
  · unfold decrypt at h
    dsimp only at h
    rw [if_pos htwice] at h
    cases h
  · rcases Nat.lt_or_ge q (2 ^ 60) with hlt | hge
    · rcases decrypt_spec hsk hold hpos hlt htwice hct ⟨hb, rfl⟩ with ⟨r, hr, _⟩
      rw [hr] at h
      cases h
    · rcases reciprocal_ok hpos with ⟨mu, _, hrec⟩
      simp only [decrypt, LWECiphertextImpl.getModulus, hct.modulus_eq, if_neg htwice,
        refuses_eq_false, Bool.false_eq_true, if_false, hrec, Fault.ok_bind,
        NativeVectorT.switchModulus_throws hge] at h
      exact sizeMessage_ne q (Fault.thrown.inj (Except.error.inj h))

theorem not_decryptRefuses {n p q : Nat} (hpos : 0 < q) : ¬ DecryptRefuses n p q := by
  intro h
  have hone : NativeVectorT.Valid n 1 (NativeVectorT.zeros n 1) :=
    NativeVectorT.zeros_valid (by decide)
  have hmask : NativeVectorT.Valid n q (NativeVectorT.zeros n q) :=
    NativeVectorT.zeros_valid hpos
  exact decrypt_ne_refusal hone (by decide) hpos hmask hpos
    (h 1 _ { m_a := NativeVectorT.zeros n q, m_b := 0 } (by decide) hone hmask hpos)

theorem not_roundTrips {n p q : Nat} (hp : 0 < p) (hpos : 0 < q) (hdvd : 2 * p ∣ q)
    (hge : 2 ^ 60 <= q) : ¬ RoundTrips n p q := by
  intro h
  have hone : NativeVectorT.Valid n 1 (NativeVectorT.zeros n 1) :=
    NativeVectorT.zeros_valid (by decide)
  have hmask : NativeVectorT.Valid n q (NativeVectorT.zeros n q) :=
    NativeVectorT.zeros_valid hpos
  have hstep : 0 < q / (2 * p) := Nat.div_pos (Nat.le_of_dvd hpos hdvd) (by omega)
  have hrun := h 1 _ _ 0 0 (by decide) hone hmask.residues ⟨by omega, by omega⟩
    ⟨by decide, by decide⟩
  rw [encrypt, if_neg (by omega), refuses_eq_false, NativeVectorT.switchModulus_throws hge]
    at hrun
  cases hrun

/-!
## The truncated reciprocal

For `q = 2 ^ 59` a product that `EncryptN` adds may be twice the modulus too large.
-/

/-- The entries `0, ..., 0, x`. -/
def lastEntry (k x : Nat) : List Nat := List.replicate k 0 ++ [x]

theorem lastEntry_residues {k q x : Nat} (hx : x < q) :
    Residues (k + 1) q (lastEntry k x) := by
  refine ⟨by simp [lastEntry], ?_⟩
  intro y hy
  rcases List.mem_append.mp hy with hzero | hlast
  · rw [List.eq_of_mem_replicate hzero]
    omega
  · cases List.mem_singleton.mp hlast
    exact hx

theorem lastEntry_getElem? (k x i : Nat) (hi : i < k + 1) :
    (lastEntry k x)[i]? = some (if i = k then x else 0) := by
  unfold lastEntry
  rcases Nat.lt_or_ge i k with hlt | hge
  · rw [List.getElem?_append_left (by simpa using hlt), List.getElem?_replicate, if_pos hlt,
      if_neg (by omega)]
  · cases (by omega : i = k)
    simp

theorem coefficient_lastEntry (q k x i : Nat) (hi : i < k + 1) :
    coefficient q (lastEntry k x) i = if i = k then (x : ZMod q) else 0 := by
  rw [coefficient_of_getElem? (lastEntry_getElem? k x i hi)]
  split <;> simp

theorem innerProduct_lastEntry (q k x y : Nat) :
    innerProduct q (k + 1) (lastEntry k x) (lastEntry k y) = x * y := by
  unfold innerProduct
  rw [Finset.sum_range_succ, Finset.sum_eq_zero]
  · simp [coefficient_lastEntry]
  · intro i hi
    have hik := Finset.mem_range.mp hi
    rw [coefficient_lastEntry q k x i (by omega), if_neg (by omega), zero_mul]

theorem accumulateReduced_lastEntry {q mu x y b r : Nat} (k : Nat)
    (hzero : modAddFast b (modMulFastMu 0 0 q mu) q = b)
    (hlast : modAddFast b (modMulFastMu x y q mu) q = r) :
    accumulateReduced q mu (lastEntry k x) (lastEntry k y) (k + 1) b = .ok r := by
  have hpre := foldlM_range_ok (n := k) (s := b) (fun _ r => r = b)
    (f := fun b i => do
      let u <- Fault.access (lastEntry k x)[i]?
      let w <- Fault.access (lastEntry k y)[i]?
      return modAddFast b (modMulFastMu u w q mu) q) rfl ?_
  · rcases hpre with ⟨b', hb', rfl⟩
    unfold accumulateReduced
    rw [List.range_succ, List.foldlM_append, hb']
    simp only [Fault.ok_bind, List.foldlM_cons, List.foldlM_nil,
      lastEntry_getElem? k _ k (by omega), if_true, Fault.access_some, hlast]
    rfl
  · rintro i hi b' rfl
    refine ⟨b', ?_, rfl⟩
    simp only [lastEntry_getElem? k _ i (by omega), if_neg (show ¬ i = k by omega),
      Fault.access_some, Fault.ok_bind, hzero]
    rfl

theorem addProduct_zero : modAddFast 4 (modMulFastMu 0 0 (2 ^ 59) 0) (2 ^ 59) = 4 := by
  decide

theorem addProduct_last :
    modAddFast 4 (modMulFastMu 4 (2 ^ 59 - 1) (2 ^ 59) 0) (2 ^ 59) = 2 ^ 60 := by
  decide

theorem secretResidue_zeros (q n i : Nat) :
    secretResidue q (NativeVectorT.zeros n 1) i = 0 := by
  have hentry : (NativeVectorT.zeros n 1).data.getD i 0 = 0 := by
    simp only [NativeVectorT.zeros, List.getD_eq_getElem?_getD, List.getElem?_replicate]
    split <;> rfl
  rw [secretResidue, hentry]
  simp [NativeVector.centered]

theorem maskProduct_zeros (q n : Nat) (a : List Nat) :
    maskProduct q n a (NativeVectorT.zeros n 1) = 0 :=
  Finset.sum_eq_zero fun i _ => by rw [secretResidue_zeros, mul_zero]

theorem zeros_isPublicKey (k : Nat) :
    IsPublicKey (k + 1) (2 ^ 59) (NativeVectorT.zeros (k + 1) 1)
      (List.replicate (k + 1) (NativeVectorT.zeros (k + 1) (2 ^ 59)))
      { modulus := 2 ^ 59, data := lastEntry k 4 } (lastEntry k 4) where
  length_eq := List.length_replicate
  rows := by
    intro row hrow
    rw [List.eq_of_mem_replicate hrow]
    exact NativeVectorT.zeros_valid (by decide)
  body := ⟨rfl, lastEntry_residues (by decide)⟩
  equation := by
    intro j hj
    rw [Finset.sum_eq_zero, zero_add]
    intro i hi
    rw [secretResidue_zeros, mul_zero]

theorem decrypt_truncated {n p : Nat} (hp : 0 < p) (hdvd : 2 * p ∣ 2 ^ 59)
    (hpq : p * 2 ^ 59 < 2 ^ maxBits) {ct : LWECiphertextImpl}
    (hct : NativeVectorT.Valid n (2 ^ 59) ct.m_a) (hb : ct.m_b = 2 ^ 60) :
    decrypt (some (NativeVectorT.zeros n 1)) (some ct) true p = .ok p := by
  have hsk : NativeVectorT.Valid n 1 (NativeVectorT.zeros n 1) :=
    NativeVectorT.zeros_valid (by decide)
  rcases secret_ok (q := 2 ^ 59) hsk (by decide) (by decide) (by decide) with ⟨s, hs, hstands⟩
  rcases reciprocal_ok (q := 2 ^ 59) (by decide) with ⟨mu, hmu, hrec⟩
  rcases accumulate_spec (by decide) (by decide) hmu hct.residues hstands.holds.residues
    (by decide : 0 < 2 ^ maxBits) with ⟨inner, hinner, _, hcast⟩
  have hinnerMod : inner % 2 ^ 59 = 0 := by
    have hzero := hcast (Or.inr (pow_dvd_pow 2 (by decide)))
    rw [maskProduct_eq hstands, maskProduct_zeros, Nat.cast_zero, zero_add,
      ← Nat.cast_zero] at hzero
    exact (ZMod.natCast_eq_natCast_iff' _ _ _).mp hzero
  have hp32 : p < 32 := by
    simp only [maxBits] at hpq
    omega
  have htwice : word (p * 2) = 2 * p := by
    rw [Nat.mul_comm, word_eq (by simp only [maxBits]; omega)]
  rcases hdvd with ⟨k, hk⟩
  have hshift : 2 ^ 59 / (2 * p) = k := by
    rw [hk]
    exact Nat.mul_div_cancel_left k (by omega)
  have hpk : p * k = 2 ^ 58 := by
    have hdouble : 2 * (p * k) = 2 * 2 ^ 58 := by
      rw [← mul_assoc, ← hk]
      exact pow_succ' 2 58
    omega
  have hkle : k <= 2 ^ 58 := by
    rw [← hpk]
    exact Nat.le_mul_of_pos_left k hp
  have hround : mulFast p (modAddFast (modSubFast (2 ^ 60) 0 (2 ^ 59)) k (2 ^ 59)) / 2 ^ 59 =
      p := by
    have hsub : modSubFast (2 ^ 60) 0 (2 ^ 59) = 2 ^ 60 := by decide
    have hadd : modAddFast (2 ^ 60) k (2 ^ 59) = 2 ^ 59 + k := by
      unfold modAddFast
      rw [word_eq (by simp only [maxBits]; omega)]
      dsimp only
      rw [if_pos (by omega), subFast_eq (by omega) (by simp only [maxBits]; omega)]
      omega
    have hmul : (2 ^ 59 + k) * p = 2 ^ 59 * p + 2 ^ 58 := by
      rw [add_mul, Nat.mul_comm k p, hpk]
    rw [hsub, hadd, mulFast, hmul, word_eq (by simp only [maxBits]; omega),
      Nat.mul_add_div (by decide)]
    rfl
  unfold decrypt
  simp only [LWECiphertextImpl.getModulus, hct.modulus_eq, htwice, if_neg (show 2 * p ≠ 0 by omega),
    refuses_eq_false, Bool.false_eq_true, if_false, hrec, hs, Fault.ok_bind,
    hstands.holds.length_eq, hinner, hinnerMod, hb, hshift, hround]
  rw [signedWord_eq (by omega) (by omega)]
  rfl

theorem messageStart (x : Nat) : addFast (mulFast 0 x) 4 = 4 := by
  rw [mulFast, Nat.mul_zero]
  decide

theorem not_roundTripsN {k p : Nat} (hp : 0 < p) (hdvd : 2 * p ∣ 2 ^ 59)
    (hpq : p * 2 ^ 59 < 2 ^ maxBits) : ¬ RoundTripsN (k + 1) p (2 ^ 59) := by
  intro h
  have hsk : NativeVectorT.Valid (k + 1) 1 (NativeVectorT.zeros (k + 1) 1) :=
    NativeVectorT.zeros_valid (by decide)
  have hkey := zeros_isPublicKey k
  have ha : Residues (k + 1) (2 ^ 59) (NativeVectorT.zeros (k + 1) (2 ^ 59)).data :=
    (NativeVectorT.zeros_valid (by decide)).residues
  have hsp : Residues (k + 1) (2 ^ 59) (lastEntry k (2 ^ 59 - 1)) :=
    lastEntry_residues (by decide)
  have hcombined : ((0 : Int) : ZMod (2 ^ 59)) = ((4 : Nat) : ZMod (2 ^ 59)) +
      innerProduct (2 ^ 59) (k + 1) (lastEntry k (2 ^ 59 - 1)) (lastEntry k 4) -
        maskProduct (2 ^ 59) (k + 1) (NativeVectorT.zeros (k + 1) (2 ^ 59)).data
          (NativeVectorT.zeros (k + 1) 1) := by
    rw [maskProduct_zeros, innerProduct_lastEntry, sub_zero, ← Nat.cast_mul, ← Nat.cast_add,
      Int.cast_zero, ← Nat.cast_zero]
    exact (ZMod.natCast_eq_natCast_iff' _ _ _).mpr (by decide)
  have hstep : 0 < 2 ^ 59 / (2 * p) :=
    Nat.div_pos (Nat.le_of_dvd (by decide) hdvd) (by omega)
  have hrun := h 1 _ _ _ _ _ _ 4 0 0 (by decide) hsk hkey hkey.body.residues hsp ha (by decide)
    hcombined ⟨by omega, by omega⟩ ⟨by decide, by decide⟩
  rcases addRows_spec (by decide) (by decide) hkey.length_eq hkey.rows hsp
    (show NativeVectorT.Stands (k + 1) (2 ^ 59) _ (NativeVectorT.zeros (k + 1) (2 ^ 59)) from
      ⟨rfl, ha.holds⟩) with ⟨mask, hmask, hmaskStands⟩
  have hmaskRun : addRows (List.replicate (k + 1) (NativeVectorT.zeros (k + 1) (2 ^ 59)))
      (lastEntry k (2 ^ 59 - 1)) (k + 1)
      { modulus := 2 ^ 59, data := (NativeVectorT.zeros (k + 1) (2 ^ 59)).data } = .ok mask :=
    hmask
  have hstart : addFast (mulFast (ofSigned 0 % p) (2 ^ 59 / p)) 4 = 4 := by
    have hword : ofSigned 0 = 0 := by decide
    rw [hword, Nat.zero_mod, messageStart]
  have hrec : reciprocal (2 ^ 59) = .ok 0 := by
    rw [reciprocal, computeMu_two_pow]
  have hbody : (lastEntry k 4).length = k + 1 := (lastEntry_residues (q := 5) (by decide)).1
  rw [encryptN, if_neg (by omega), refuses_eq_false,
    NativeVectorT.switchModulus_self hkey.body (by decide) (by decide)] at hrun
  simp only [Bool.false_eq_true, if_false, Fault.ok_bind, hbody, hmaskRun, hrec, hstart,
    if_neg (show ¬ (4 >= 2 ^ 59) by decide),
    accumulateReduced_lastEntry k addProduct_zero addProduct_last] at hrun
  have hwrong : decrypt (some (NativeVectorT.zeros (k + 1) 1))
      (some { m_a := mask, m_b := 2 ^ 60, m_p := p }) true p = .ok p :=
    decrypt_truncated hp hdvd hpq hmaskStands.valid rfl
  have hvalue := Except.ok.inj (hwrong.symm.trans hrun)
  rw [Int.zero_emod] at hvalue
  omega

/-!
## The exact condition
-/

/--
The law holds when the announced checks need not fire, the vectors accept the modulus
and a public key does not meet the truncated reciprocal.
-/
theorem encryptionLaw_iff {n p q : Nat} (hp : 0 < p) (hpos : 0 < q) :
    EncryptionLaw n p q <->
      2 * p ∣ q ∧ (p * q < 2 ^ maxBits -> (n + 2) * q < 2 ^ maxBits ->
        q < 2 ^ 60 ∧ (n = 0 ∨ q ≠ 2 ^ 59)) := by
  constructor
  · intro h
    have hdvd : 2 * p ∣ q := by
      by_contra hnot
      exact not_decryptRefuses hpos (h.decryptRefuses hnot)
    refine ⟨hdvd, ?_⟩
    intro hpq hroom
    rcases h.roundTrips hdvd hpq hroom with ⟨hsecret, hpublic⟩
    constructor
    · by_contra hge
      exact not_roundTrips hp hpos hdvd (not_lt.mp hge) hsecret
    · cases n with
      | zero =>
          exact Or.inl rfl
      | succ k =>
          right
          rintro rfl
          exact not_roundTripsN hp hdvd hpq hpublic
  · rintro ⟨hdvd, hcondition⟩
    constructor
    · intro _ hpq hroom
      rcases hcondition hpq hroom with ⟨hlt, hne⟩
      exact ⟨roundTrips hp hpos hlt hdvd hpq hroom, roundTripsN hp hpos hlt hne hdvd hpq hroom⟩
    · intro hnot
      exact absurd (dvd_trans (Dvd.intro_left 2 rfl) hdvd) hnot
    · intro hnot
      exact absurd hdvd hnot

theorem encryptionLaw_iff_sixteen :
    EncryptionLaw 2 4 16 <->
      2 * 4 ∣ 16 ∧ (4 * 16 < 2 ^ maxBits -> (2 + 2) * 16 < 2 ^ maxBits ->
        16 < 2 ^ 60 ∧ (2 = 0 ∨ 16 ≠ 2 ^ 59)) :=
  encryptionLaw_iff (by decide) (by decide)

/-- With `p = 3` and `q = 16` neither check throws. -/
theorem not_encryptionLaw :
    ¬ 3 ∣ 16 ∧
      encrypt (NativeVectorT.zeros 1 16) [5] 0 1 3 16 =
        .ok { m_a := { modulus := 16, data := [5] }, m_b := 5, m_p := 3 } ∧
      decrypt (some (NativeVectorT.zeros 1 16))
        (some { m_a := { modulus := 16, data := [5] }, m_b := 5, m_p := 3 }) true 3 = .ok 1 ∧
      ¬ EncryptionLaw 1 3 16 := by
  have hrun : encrypt (NativeVectorT.zeros 1 16) [5] 0 1 3 16 =
      .ok { m_a := { modulus := 16, data := [5] }, m_b := 5, m_p := 3 } := by
    decide
  have hvalid : NativeVectorT.Valid 1 16 (NativeVectorT.zeros 1 16) :=
    NativeVectorT.zeros_valid (by decide)
  refine ⟨by decide, hrun, by decide, ?_⟩
  intro h
  have hthrow := (h.encryptRefuses (by decide)).1 16 _ [5] 0 1 (by decide) hvalid
    ⟨rfl, by decide⟩
  rw [hrun] at hthrow
  cases hthrow

end LWEEncryptionScheme

end BinFHE
end OpenFHE
