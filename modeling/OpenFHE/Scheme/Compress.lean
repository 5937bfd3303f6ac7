import OpenFHE.Scheme.Rescaling

/-!
# Compression of ciphertexts

`Compress` of the RNS schemes and of BFV.  The first one rescales to a degree and then drops
towers.  The second one divides once for each tower above the number asked for, and computes that
difference in unsigned words.
-/

namespace OpenFHE
namespace Scheme

open OpenFHE.Core Foundation Hal NativeInteger
open Ckksrns (Leveled levelReduceInternalInPlace)

/-! ## Operations -/

section Operations

variable {F : Type}

def ScalingTechnique.IsComposite (technique : ScalingTechnique) : Prop :=
  technique = .COMPOSITESCALINGAUTO ∨ technique = .COMPOSITESCALINGMANUAL

instance (technique : ScalingTechnique) : Decidable technique.IsComposite :=
  inferInstanceAs (Decidable (_ ∨ _))

/-- What `LeveledSHERNS::Compress` takes from its parameters and from the class of the scheme. -/
structure CompressRNS (F : Type) where
  moduliQ : List Nat
  technique : ScalingTechnique
  compositeDegree : Nat
  modReduceInternalInPlace : Ciphertext F -> Nat -> Option (Ciphertext F)

namespace CompressRNS

variable (she : CompressRNS F)

def levelsToDrop : Nat := if she.technique.IsComposite then she.compositeDegree else 1

/-- The loop of the rescalings; each of them drops towers or throws. -/
def reduceDegree (ciphertext : Ciphertext F) (noiseScaleDeg : Nat) : Option (Ciphertext F) :=
  whileFuel (fun result => decide (result.noiseScaleDeg > noiseScaleDeg))
    (fun result => she.modReduceInternalInPlace result she.levelsToDrop)
    (she.moduliQ.length + 1) ciphertext

def compress (ciphertext : Ciphertext F) (towersLeft noiseScaleDeg : Nat) :
    Option (Ciphertext F) :=
  if she.technique.IsComposite ∧ towersLeft % she.compositeDegree ≠ 0 then none
  else do
    let result <- she.reduceDegree ciphertext noiseScaleDeg
    let cv0 <- result.elements[0]?
    let sizeQl := cv0.length
    if towersLeft < sizeQl then levelReduceInternalInPlace result (sizeQl - towersLeft)
    else return result

end CompressRNS

inductive MultiplicationTechnique where
  | BEHZ
  | HPS
  | HPSPOVERQ
  | HPSPOVERQLEVELED
deriving DecidableEq, Repr

inductive EncryptionTechnique where
  | STANDARD
  | EXTENDED
deriving DecidableEq, Repr

/-- The parameters that `LeveledSHEBFVRNS::Compress` reads. -/
structure CompressBFVRNS where
  moduliQ : List Nat
  multiplicationTechnique : MultiplicationTechnique
  encryptionTechnique : EncryptionTechnique

namespace CompressBFVRNS

variable (params : CompressBFVRNS)

/-- The noise scale degree is not used; the format is that of the elements. -/
def compress (cache : Poly.TableCache) (format : Format) (ciphertext : Ciphertext F)
    (towersLeft _noiseScaleDeg : Nat) : Option (Ciphertext F) :=
  if params.multiplicationTechnique = .BEHZ ∨ params.multiplicationTechnique = .HPS then none
  else if params.encryptionTechnique = .EXTENDED then none
  else do
    let cv0 <- ciphertext.elements[0]?
    let sizeQ := params.moduliQ.length
    let sizeQl := cv0.length
    let diffQl := sizeQ - sizeQl
    let levels := word (sizeQl + (2 ^ 64 - towersLeft))
    let cv <- (List.range levels).foldlM (divideElements cache params.moduliQ format diffQl)
      ciphertext.elements
    return { ciphertext with elements := cv }

end CompressBFVRNS

/-- `CryptoContextImpl::Compress` checks the numbers before it calls the scheme. -/
def compressContext (compress : Ciphertext F -> Nat -> Nat -> Option (Ciphertext F))
    (ciphertext : Ciphertext F) (towersLeft noiseScaleDeg : Nat) : Option (Ciphertext F) :=
  if towersLeft < noiseScaleDeg then none else compress ciphertext towersLeft noiseScaleDeg

end Operations

/-! ## Messages -/

section Messages

/--
How the message is read from the decryption polynomial: from its centered residues, which are
known modulo `t`, or by the rounding of `t` times the polynomial divided by the modulus.
-/
inductive Decoding where
  | centered (t : Nat)
  | rounded (t : Nat)
deriving DecidableEq, Repr

/-- The multiples that a division may add to the elements. -/
def Decoding.multiple : Decoding -> Nat
  | .centered t => t
  | .rounded _ => 1

/--
The polynomial `D'` modulo `Q'` carries the message that `D` carries modulo `Q`, if there is room
for the error `B` of the division by `P`.
-/
def SameMessage (n Q Q' P : Nat) (B : Int) (D D' : Nat -> Int) : Decoding -> Prop
  | .centered t =>
      (forall r, r < n -> 2 * (|D r| + t * (P * B)) < P * Q') ->
        forall r, r < n -> 2 * |D' r| < Q' ∧ |P * D' r - D r| <= t * (P * B) ∧
          (P * D' r ≡ D r [ZMOD t])
  | .rounded t =>
      forall m : Nat -> Int, (forall r, r < n -> 2 * (|t * D r - Q * m r| + t * (P * B)) < Q) ->
        forall r, r < n -> 2 * |t * D' r - Q' * m r| < Q'

/-- For every secret the second ciphertext decrypts to the message of the first one. -/
def KeepsMessage (cache : Poly.TableCache) (k : Nat) (psi : Nat -> Nat) (moduliQ : List Nat)
    (decoding : Decoding) (l l' P : Nat) (cv cv' : List DCRTPoly) : Prop :=
  forall s σ, DCRTPoly.Encodes k psi .EVALUATION moduliQ σ s ->
    forall b D, decryptCore cache s cv = some b ->
      DCRTPoly.Encodes k psi .EVALUATION (moduliQ.take l) D b ->
      exists b' D', decryptCore cache s cv' = some b' ∧
        DCRTPoly.Encodes k psi .EVALUATION (moduliQ.take l') D' b' ∧
        SameMessage (2 ^ k) (moduliQ.take l).prod (moduliQ.take l').prod P
          (errorBound (2 ^ k) σ cv.length) D D' decoding

theorem sameMessage_of_quotient {n Q Q' P : Nat} {B : Int} {D D' E : Nat -> Int}
    {decoding : Decoding} (hP : 0 < P)
    (hQ : forall t, decoding = .rounded t -> Q = P * Q')
    (hquotient : forall r, r < n -> (P : Int) * D' r = D r + decoding.multiple * E r)
    (hE : forall r, r < n -> |E r| <= P * B) : SameMessage n Q Q' P B D D' decoding := by
  have hP' : (0 : Int) < P := by exact_mod_cast hP
  cases decoding with
  | centered t =>
      intro hroom r hr
      have hquot : (P : Int) * D' r = D r + t * E r := hquotient r hr
      have herror : |(t : Int) * E r| <= t * (P * B) := by
        rw [abs_mul, abs_of_nonneg (Int.natCast_nonneg t)]
        exact mul_le_mul_of_nonneg_left (hE r hr) (Int.natCast_nonneg t)
      refine ⟨?_, ?_, ?_⟩
      · have habs : (P : Int) * |D' r| <= |D r| + t * (P * B) := by
          calc
            (P : Int) * |D' r| = |D r + t * E r| := by rw [<- hquot, abs_mul, abs_of_pos hP']
            _ <= |D r| + |(t : Int) * E r| := abs_add_le _ _
            _ <= |D r| + t * (P * B) := by linarith
        have hlt : (P : Int) * (2 * |D' r|) < P * Q' := by linarith [hroom r hr]
        exact lt_of_mul_lt_mul_left hlt hP'.le
      · rw [hquot, add_sub_cancel_left]
        exact herror
      · rw [hquot]
        exact Int.modEq_iff_dvd.mpr ⟨-E r, by ring⟩
  | rounded t =>
      intro m hroom r hr
      have hquot : (P : Int) * D' r = D r + E r := by
        have h := hquotient r hr
        rwa [Decoding.multiple, Nat.cast_one, one_mul] at h
      have hmodulus : (Q : Int) = P * Q' := by exact_mod_cast hQ t rfl
      have herror : |(t : Int) * E r| <= t * (P * B) := by
        rw [abs_mul, abs_of_nonneg (Int.natCast_nonneg t)]
        exact mul_le_mul_of_nonneg_left (hE r hr) (Int.natCast_nonneg t)
      have hscaled : (P : Int) * (t * D' r - Q' * m r) = t * D r - Q * m r + t * E r := by
        rw [hmodulus]
        linear_combination (t : Int) * hquot
      have habs : (P : Int) * |t * D' r - Q' * m r| <= |t * D r - Q * m r| + t * (P * B) := by
        calc
          (P : Int) * |t * D' r - Q' * m r| = |t * D r - Q * m r + t * E r| := by
            rw [<- hscaled, abs_mul, abs_of_pos hP']
          _ <= |t * D r - Q * m r| + |(t : Int) * E r| := abs_add_le _ _
          _ <= |t * D r - Q * m r| + t * (P * B) := by linarith
      have hlt : (P : Int) * (2 * |t * D' r - Q' * m r|) < P * Q' := by
        rw [<- hmodulus]
        linarith [hroom r hr]
      exact lt_of_mul_lt_mul_left hlt hP'.le

variable {cache : Poly.TableCache} {k : Nat} {psi : Nat -> Nat} {moduliQ : List Nat}

theorem keepsMessage_refl (decoding : Decoding) (l : Nat) (cv : List DCRTPoly) :
    KeepsMessage cache k psi moduliQ decoding l l 1 cv cv := by
  intro s σ _ b D hb hD
  refine ⟨b, D, hb, hD, sameMessage_of_quotient (E := fun _ => 0) Nat.one_pos ?_ ?_ ?_⟩
  · intro _ _
    rw [one_mul]
  · intro r _
    rw [Nat.cast_one, one_mul, mul_zero, add_zero]
  · intro r _
    rw [abs_zero, Nat.cast_one, one_mul]
    exact errorBound_nonneg _

theorem drop_take_append (moduli : List Nat) {e m l : Nat} (hem : e <= m) (hml : m <= l) :
    (moduli.take m).drop e ++ (moduli.take l).drop m = (moduli.take l).drop e := by
  have hsplit := List.take_append_drop (m - e) ((moduli.take l).drop e)
  rw [List.take_drop, List.drop_drop, List.take_take, Nat.add_sub_cancel' hem,
    Nat.min_eq_left hml] at hsplit
  exact hsplit

theorem prod_take_drop (moduli : List Nat) {m l : Nat} (hle : m <= l) :
    (moduli.take m).prod * ((moduli.take l).drop m).prod = (moduli.take l).prod := by
  have hsplit := drop_take_append moduli (Nat.zero_le m) hle
  rw [List.drop_zero, List.drop_zero] at hsplit
  rw [<- List.prod_append, hsplit]

theorem dvd_prod_take {moduli : List Nat} {m l : Nat} (hle : m <= l) :
    (moduli.take m).prod ∣ (moduli.take l).prod :=
  ⟨_, (prod_take_drop moduli hle).symm⟩

theorem keepsMessage_of_divided (hk : 0 < k) (hk31 : k <= 31)
    (hready : DCRTPoly.ReadyChain cache k psi moduliQ) (hcoprime : moduliQ.Pairwise Nat.Coprime)
    {decoding : Decoding} {l l1 l' : Nat} (hpos : 0 < l') (hle' : l' <= l1) (hle1 : l1 <= l)
    (hle : l <= moduliQ.length) (hdecoding : forall t, decoding = .rounded t -> l1 = l')
    {xs ys : List (Nat -> Int)} {cv cv' : List DCRTPoly}
    (h : EncodesAll k psi .EVALUATION (moduliQ.take l) xs cv) (hne : cv ≠ [])
    (h' : EncodesAll k psi .EVALUATION (moduliQ.take l') ys cv')
    (hdivided : List.Forall₂ (DCRTPoly.DividedBy decoding.multiple
      ((moduliQ.take l).drop l1).prod) xs ys) :
    KeepsMessage cache k psi moduliQ decoding l l' ((moduliQ.take l).drop l1).prod cv cv' := by
  intro s σ hs b D hb hD
  have hready' : forall m, DCRTPoly.ReadyChain cache k psi (moduliQ.take m) :=
    fun m q hq => hready q (List.mem_of_mem_take hq)
  have hlength : xs.length = ys.length := hdivided.length_eq
  have hne' : cv' ≠ [] := by
    rw [<- List.length_pos_iff, <- h'.length_eq, <- hlength, h.length_eq]
    exact List.length_pos_iff.mpr hne
  rw [show l = l - 1 + 1 by omega] at h
  rw [show l' = l' - 1 + 1 by omega] at h'
  rcases h.decryptCore hready (by omega) hs hne with ⟨b0, hb0, hencodes⟩
  rcases h'.decryptCore hready (by omega) hs hne' with ⟨b', hb', hencodes'⟩
  rw [show l - 1 + 1 = l by omega] at hencodes
  rw [show l' - 1 + 1 = l' by omega] at hencodes'
  cases hb.symm.trans hb0
  rcases @decryptionPoly_dividedBy (2 ^ k) σ _ _ _ _ hdivided with ⟨E, hE, hbound⟩
  have hdvd : forall r, exists z : Int, r < 2 ^ k ->
      D r - decryptionPoly (2 ^ k) σ xs r = (moduliQ.take l).prod * z := by
    intro r
    by_cases hr : r < 2 ^ k
    · rcases encodes_modEq hk hk31 (hready' l) (hcoprime.sublist (List.take_sublist _ _)) hD
        hencodes hr with ⟨z, hz⟩
      exact ⟨z, fun _ => hz⟩
    · exact ⟨0, fun h => absurd h hr⟩
  choose z hz using hdvd
  have hprod : ((moduliQ.take l).prod : Int) =
      (moduliQ.take l1).prod * ((moduliQ.take l).drop l1).prod := by
    exact_mod_cast (prod_take_drop moduliQ hle1).symm
  refine ⟨b', fun r => decryptionPoly (2 ^ k) σ ys r + (moduliQ.take l1).prod * z r, hb',
    hencodes'.congr ?_, ?_⟩
  · intro q hq r _
    have hzero : (((moduliQ.take l1).prod : Nat) : ZMod q) = 0 :=
      (ZMod.natCast_eq_zero_iff _ _).mpr ((List.dvd_prod hq).trans (dvd_prod_take hle'))
    rw [Int.cast_add, Int.cast_mul, Int.cast_natCast, hzero, zero_mul, add_zero]
  · apply sameMessage_of_quotient (E := E)
    · apply Nat.pos_of_ne_zero
      intro hzero
      have hone := List.prod_eq_zero_iff.mp hzero
      have hmodulus := (hready 0 (List.mem_of_mem_take (List.mem_of_mem_drop hone))).modulus
      exact absurd hmodulus.one_lt (by decide)
    · intro t ht
      rw [<- hdecoding t ht, mul_comm, prod_take_drop moduliQ hle1]
    · intro r hr
      have hsum := hE r
      have hdiff := hz r hr
      rw [hprod] at hdiff
      linear_combination hsum - hdiff
    · intro r hr
      rw [<- h.length_eq]
      exact hbound r hr

end Messages

/-! ## The loop of the rescalings -/

section Rescalings

variable {F : Type} {cache : Poly.TableCache} {k : Nat} {psi : Nat -> Nat}

/-- What a rescaling does to the elements and, by `scaled`, to the factor of a ciphertext. -/
structure CompressRNS.Sound (she : CompressRNS F) (k : Nat) (psi : Nat -> Nat) (t : Nat)
    (scaled : Nat -> Nat -> Ciphertext F -> Ciphertext F -> Prop) : Prop where
  levels_pos : 0 < she.levelsToDrop
  step : forall c xs, Leveled she.moduliQ (2 ^ k) c ->
    EncodesAll k psi .EVALUATION (she.moduliQ.take (she.moduliQ.length - c.level)) xs c.elements ->
    0 < c.noiseScaleDeg -> c.level + she.levelsToDrop < she.moduliQ.length ->
    exists r ys, she.modReduceInternalInPlace c she.levelsToDrop = some r ∧
      r.level = c.level + she.levelsToDrop ∧ r.noiseScaleDeg = c.noiseScaleDeg - 1 ∧
      EncodesAll k psi .EVALUATION (she.moduliQ.take (she.moduliQ.length - r.level)) ys
        r.elements ∧
      List.Forall₂ (DCRTPoly.DividedBy t ((she.moduliQ.take
        (she.moduliQ.length - c.level)).drop (she.moduliQ.length - r.level)).prod) xs ys ∧
      scaled (she.moduliQ.length - c.level) (she.moduliQ.length - r.level) c r
  scaled_refl : forall l c, scaled l l c c
  scaled_trans : forall l m n c d e, n <= m -> m <= l -> l <= she.moduliQ.length ->
    scaled l m c d -> scaled m n d e -> scaled l n c e

variable {she : CompressRNS F} {t : Nat}
  {scaled : Nat -> Nat -> Ciphertext F -> Ciphertext F -> Prop}

theorem leveled_of_encodesAll {c : Ciphertext F} {xs : List (Nat -> Int)}
    (hlevel : c.level < she.moduliQ.length) (hne : c.elements ≠ [])
    (h : EncodesAll k psi .EVALUATION (she.moduliQ.take (she.moduliQ.length - c.level)) xs
      c.elements) : Leveled she.moduliQ (2 ^ k) c :=
  ⟨hlevel, hne, fun _ hmem => h.wellFormed hmem⟩

/-- The state of the loop at the level it has reached. -/
structure RescaledTo (she : CompressRNS F) (k : Nat) (psi : Nat -> Nat) (t : Nat)
    (scaled : Nat -> Nat -> Ciphertext F -> Ciphertext F -> Prop) (c : Ciphertext F)
    (xs : List (Nat -> Int)) (noiseScaleDeg : Nat) (r : Ciphertext F) : Prop where
  leveled : Leveled she.moduliQ (2 ^ k) r
  level_le : c.level <= r.level
  count : r.level + she.levelsToDrop * (r.noiseScaleDeg - noiseScaleDeg) =
    c.level + she.levelsToDrop * (c.noiseScaleDeg - noiseScaleDeg)
  scaled : scaled (she.moduliQ.length - c.level) (she.moduliQ.length - r.level) c r
  elements : exists ys, EncodesAll k psi .EVALUATION
      (she.moduliQ.take (she.moduliQ.length - r.level)) ys r.elements ∧
    List.Forall₂ (DCRTPoly.DividedBy t ((she.moduliQ.take
      (she.moduliQ.length - c.level)).drop (she.moduliQ.length - r.level)).prod) xs ys

theorem RescaledTo.step (h : she.Sound k psi t scaled) {c r : Ciphertext F}
    {xs : List (Nat -> Int)} {noiseScaleDeg : Nat}
    (hroom : c.level + she.levelsToDrop * (c.noiseScaleDeg - noiseScaleDeg) < she.moduliQ.length)
    (hr : RescaledTo she k psi t scaled c xs noiseScaleDeg r)
    (hdegree : noiseScaleDeg < r.noiseScaleDeg) :
    exists r', she.modReduceInternalInPlace r she.levelsToDrop = some r' ∧
      RescaledTo she k psi t scaled c xs noiseScaleDeg r' ∧
      r'.noiseScaleDeg = r.noiseScaleDeg - 1 := by
  rcases hr.elements with ⟨ys, hys, hdivided⟩
  have hcount := hr.count
  have hle := hr.level_le
  have hlevel := hr.leveled.level_lt
  have hsplit : she.levelsToDrop * (r.noiseScaleDeg - noiseScaleDeg) =
      she.levelsToDrop * (r.noiseScaleDeg - 1 - noiseScaleDeg) + she.levelsToDrop := by
    rw [show r.noiseScaleDeg - noiseScaleDeg = r.noiseScaleDeg - 1 - noiseScaleDeg + 1 by omega,
      Nat.mul_succ]
  rcases h.step r ys hr.leveled hys (by omega) (by omega) with
    ⟨r', zs, hrun, hlevel', hdegree', hzs, hquotient, hscaled⟩
  refine ⟨r', hrun, ⟨leveled_of_encodesAll (by omega) ?_ hzs, by omega, ?_, ?_, zs, hzs, ?_⟩,
    hdegree'⟩
  · rw [<- List.length_pos_iff, <- hzs.length_eq, <- hquotient.length_eq, hys.length_eq]
    exact List.length_pos_iff.mpr hr.leveled.ne_nil
  · rw [hlevel', hdegree', <- hcount, hsplit]
    omega
  · exact h.scaled_trans _ _ _ _ _ _ (by omega) (by omega) (Nat.sub_le _ _) hr.scaled hscaled
  · rw [<- drop_take_append she.moduliQ
      (show she.moduliQ.length - r'.level <= she.moduliQ.length - r.level by omega)
      (show she.moduliQ.length - r.level <= she.moduliQ.length - c.level by omega),
      List.prod_append]
    exact dividedAll_trans hdivided hquotient

theorem reduceDegree_spec (h : she.Sound k psi t scaled) {c : Ciphertext F}
    {xs : List (Nat -> Int)} {noiseScaleDeg : Nat} (hc : Leveled she.moduliQ (2 ^ k) c)
    (hxs : EncodesAll k psi .EVALUATION (she.moduliQ.take (she.moduliQ.length - c.level)) xs
      c.elements)
    (hroom : c.level + she.levelsToDrop * (c.noiseScaleDeg - noiseScaleDeg) <
      she.moduliQ.length) :
    exists r, she.reduceDegree c noiseScaleDeg = some r ∧
      RescaledTo she k psi t scaled c xs noiseScaleDeg r ∧
      r.level = c.level + she.levelsToDrop * (c.noiseScaleDeg - noiseScaleDeg) ∧
      r.noiseScaleDeg <= noiseScaleDeg := by
  have hfuel : c.noiseScaleDeg - noiseScaleDeg <
      she.moduliQ.length + 1 := by
    have hmul := Nat.le_mul_of_pos_left (c.noiseScaleDeg - noiseScaleDeg) h.levels_pos
    omega
  rcases whileFuel_spec (c := fun result : Ciphertext F =>
      decide (result.noiseScaleDeg > noiseScaleDeg))
    (f := fun result => she.modReduceInternalInPlace result she.levelsToDrop)
    (RescaledTo she k psi t scaled c xs noiseScaleDeg)
    (fun result => result.noiseScaleDeg - noiseScaleDeg)
    (by
      intro s hs htest
      have hdegree : noiseScaleDeg < s.noiseScaleDeg := of_decide_eq_true htest
      rcases hs.step h hroom hdegree with ⟨s', hrun, hs', hdegree'⟩
      exact ⟨s', hrun, hs', by omega⟩)
    (she.moduliQ.length + 1) c
    (by
      refine ⟨hc, le_refl _, rfl, h.scaled_refl _ c, xs, hxs, forall₂_refl (fun x => ?_) xs⟩
      rw [List.drop_of_length_le (by rw [List.length_take]; omega), List.prod_nil]
      exact DCRTPoly.DividedBy.refl _ x) hfuel with ⟨r, hrun, hr, htest⟩
  have hdegree : ¬ r.noiseScaleDeg > noiseScaleDeg := of_decide_eq_false htest
  have hcount := hr.count
  rw [show r.noiseScaleDeg - noiseScaleDeg = 0 by omega, Nat.mul_zero, Nat.add_zero] at hcount
  exact ⟨r, hrun, hr, hcount, not_lt.mp hdegree⟩

end Rescalings

/-! ## The schemes -/

section Schemes

variable {F : Type} [Div F]

def ckksCompress (cache : Poly.TableCache) (params : Ckksrns.LeveledParameters F) :
    CompressRNS F where
  moduliQ := params.moduliQ
  technique := params.technique
  compositeDegree := params.compositeDegree
  modReduceInternalInPlace := Ckksrns.modReduceInternalInPlace cache params

omit [Div F] in
/-- The parameters of BGV keep the composite degree one of their base class. -/
def bgvCompress (cache : Poly.TableCache) (params : Bgvrns.LeveledParameters) :
    CompressRNS F where
  moduliQ := params.moduliQ
  technique := params.technique
  compositeDegree := 1
  modReduceInternalInPlace := Bgvrns.modReduceInternalInPlace cache params

/-- The scaling factor is divided by those of the dropped moduli. -/
def ckksScaled (params : Ckksrns.LeveledParameters F) (l m : Nat) (c r : Ciphertext F) : Prop :=
  r.scalingFactor = Ckksrns.rescaledFactor params c.scalingFactor l (l - m)

omit [Div F] in
/-- The integer factor, where it is tracked, is divided by the dropped moduli. -/
def bgvScaled (params : Bgvrns.LeveledParameters) (l m : Nat) (c r : Ciphertext F) : Prop :=
  if params.Flexible then
    ((((params.moduliQ.take l).drop m).prod * r.scalingFactorInt : Nat) :
      ZMod params.plaintextModulus) = c.scalingFactorInt
  else r.scalingFactorInt = c.scalingFactorInt

variable {cache : Poly.TableCache} {k : Nat} {psi : Nat -> Nat}

theorem rescaledFactor_add (params : Ckksrns.LeveledParameters F) (factor : F) (l a b : Nat) :
    Ckksrns.rescaledFactor params factor l (a + b) =
      Ckksrns.rescaledFactor params (Ckksrns.rescaledFactor params factor l a) (l - a) b := by
  unfold Ckksrns.rescaledFactor
  rw [List.range_add, List.foldl_append, List.foldl_map]
  congr 1
  funext f i
  congr 2
  omega

theorem divideByLast_run_eq (params : Ckksrns.LeveledParameters F) (sizeQl diffQl : Nat)
    (c : Ciphertext F) (n : Nat) :
    (List.range n).foldlM (Ckksrns.divideByLast cache params sizeQl diffQl) c =
      ((List.range n).foldlM (divideElements cache params.moduliQ .EVALUATION diffQl)
        c.elements).map fun cv => { c with
          elements := cv
          scalingFactor := Ckksrns.rescaledFactor params c.scalingFactor sizeQl n } := by
  induction n with
  | zero => rfl
  | succ n ih =>
      rw [List.range_succ, List.foldlM_append, ih, List.foldlM_append]
      cases (List.range n).foldlM (divideElements cache params.moduliQ .EVALUATION diffQl)
        c.elements with
      | none => rfl
      | some cv =>
          simp only [Option.map_some, Option.bind_eq_bind, Option.bind_some, List.foldlM_cons,
            List.foldlM_nil, Ckksrns.rescaledFactor_succ]
          have hstep : Ckksrns.divideByLast cache params sizeQl diffQl { c with
                elements := cv
                scalingFactor := Ckksrns.rescaledFactor params c.scalingFactor sizeQl n } n =
              (divideElements cache params.moduliQ .EVALUATION diffQl cv n).map fun cv' => { c with
                elements := cv'
                scalingFactor := Ckksrns.rescaledFactor params c.scalingFactor sizeQl n /
                  params.getModReduceFactor (sizeQl - 1 - n) } := by
            show (divideElements cache params.moduliQ .EVALUATION diffQl cv n).bind _ = _
            cases divideElements cache params.moduliQ .EVALUATION diffQl cv n <;> rfl
          rw [hstep]
          cases divideElements cache params.moduliQ .EVALUATION diffQl cv n <;> rfl

theorem ckks_modReduce_eq (params : Ckksrns.LeveledParameters F) {c : Ciphertext F}
    {x : DCRTPoly} (hx : c.elements[0]? = some x) (levels : Nat) :
    Ckksrns.modReduceInternalInPlace cache params c levels =
      ((List.range levels).foldlM (divideElements cache params.moduliQ .EVALUATION
        (params.moduliQ.length - x.length)) c.elements).map fun cv => { c with
          elements := cv
          noiseScaleDeg := c.noiseScaleDeg - levels / params.compositeDegree
          level := c.level + levels
          scalingFactor := Ckksrns.rescaledFactor params c.scalingFactor x.length levels } := by
  unfold Ckksrns.modReduceInternalInPlace
  simp only [hx, Option.bind_eq_bind, Option.bind_some]
  exact divideByLast_run_eq params _ _ { c with
    noiseScaleDeg := c.noiseScaleDeg - levels / params.compositeDegree
    level := c.level + levels } levels

theorem ckks_sound {params : Ckksrns.LeveledParameters F} (h : Ckksrns.Setting cache params k psi)
    (hdegree : params.technique.IsComposite ∨ params.compositeDegree = 1) :
    (ckksCompress cache params).Sound k psi 1 (ckksScaled params) := by
  have hlevels : (ckksCompress cache params).levelsToDrop = params.compositeDegree := by
    unfold CompressRNS.levelsToDrop
    split
    · rfl
    · next hnot => exact (hdegree.resolve_left hnot).symm
  have hpos := h.compositeDegree
  constructor
  · rw [hlevels]
    exact hpos
  · intro c xs hc hxs _ hroom
    rw [hlevels] at hroom ⊢
    rcases hc.first with ⟨x, hx, _, hlength⟩
    have hlevel := hc.level_lt
    rcases divideElements_run h.pos h.le h.ready h.coprime
      (show params.compositeDegree < params.moduliQ.length - c.level from
        Nat.lt_sub_iff_add_lt'.mpr hroom) (Nat.sub_le _ _) hxs with ⟨ys, cv, hcv, hys, hdivided⟩
    have hsub : params.moduliQ.length - (c.level + params.compositeDegree) =
        params.moduliQ.length - c.level - params.compositeDegree := by omega
    have hroom' : c.level + params.compositeDegree < params.moduliQ.length := hroom
    have hrun := @ckks_modReduce_eq F _ cache params c x hx params.compositeDegree
    have hdivisions : (List.range params.compositeDegree).foldlM (divideElements cache
        params.moduliQ .EVALUATION (params.moduliQ.length - x.length)) c.elements = some cv := by
      rw [show x.length = params.moduliQ.length - c.level from hlength]
      exact hcv
    rw [hdivisions, Option.map_some,
      show x.length = params.moduliQ.length - c.level from hlength] at hrun
    refine ⟨_, ys, hrun, rfl, ?_, ?_, ?_, ?_⟩
    · show c.noiseScaleDeg - params.compositeDegree / params.compositeDegree = _
      rw [Nat.div_self hpos]
    · show EncodesAll k psi .EVALUATION (params.moduliQ.take
        (params.moduliQ.length - (c.level + params.compositeDegree))) ys cv
      rw [hsub]
      exact hys
    · show List.Forall₂ (DCRTPoly.DividedBy 1 ((params.moduliQ.take
        (params.moduliQ.length - c.level)).drop
          (params.moduliQ.length - (c.level + params.compositeDegree))).prod) xs ys
      rw [hsub]
      exact hdivided
    · show Ckksrns.rescaledFactor params c.scalingFactor (params.moduliQ.length - c.level)
        params.compositeDegree = Ckksrns.rescaledFactor params c.scalingFactor
          (params.moduliQ.length - c.level) (params.moduliQ.length - c.level -
            (params.moduliQ.length - (c.level + params.compositeDegree)))
      congr 1
      omega
  · intro l c
    show c.scalingFactor = _
    rw [Nat.sub_self]
    rfl
  · intro l m n c d e hnm hml _ hcd hde
    show e.scalingFactor = _
    have hd : d.scalingFactor = _ := hcd
    have he : e.scalingFactor = _ := hde
    rw [he, hd, show l - n = l - m + (m - n) by omega, rescaledFactor_add,
      show l - (l - m) = m by omega]

omit [Div F] in
theorem rescaledFactorInt_spec {params : Bgvrns.LeveledParameters}
    (h : Bgvrns.Setting cache params k psi) (ht : 1 < params.plaintextModulus)
    (htlt : params.plaintextModulus < 2 ^ 62) (hflexible : params.Flexible) {l : Nat}
    (hl : l < params.moduliQ.length) (factor : Nat) :
    exists f, Bgvrns.rescaledFactorInt params (l + 1) 1 factor = some f ∧
      ((params.moduliQ[l] * f : Nat) : ZMod params.plaintextModulus) = factor := by
  have htables : params.HasTables := by
    rcases hflexible with hauto | hext
    · exact Or.inl hauto
    · exact Or.inr (Or.inl hext)
  have hgcd := h.plaintext _ (List.getElem_mem hl)
  have hgcd' : Nat.gcd (params.moduliQ[l] % params.plaintextModulus)
      params.plaintextModulus = 1 := by
    rw [<- Nat.gcd_rec]
    exact hgcd
  rcases modInverse_spec ht (by omega) hgcd' with ⟨w, hw, _, hmul⟩
  refine ⟨modMul factor w params.plaintextModulus, ?_, ?_⟩
  · unfold Bgvrns.rescaledFactorInt Bgvrns.LeveledParameters.getModReduceFactorInt
    simp only [if_pos htables, List.range_one, List.foldlM_cons, List.foldlM_nil,
      Nat.add_sub_cancel, Nat.sub_zero, List.getElem?_eq_getElem hl, Option.map_some,
      Option.bind_eq_bind, Option.bind_some, hw]
    rfl
  · rw [modMul_eq (by omega) (lt_trans htlt (by decide)), Nat.cast_mul, ZMod.natCast_mod]
    have hone : ((params.moduliQ[l] * w : Nat) : ZMod params.plaintextModulus) = 1 := by
      have hcast := congrArg (Nat.cast (R := ZMod params.plaintextModulus)) hmul
      rw [ZMod.natCast_mod, Nat.cast_mul, ZMod.natCast_mod, Nat.cast_one] at hcast
      rw [Nat.cast_mul]
      exact hcast
    rw [Nat.cast_mul] at hone ⊢
    linear_combination (factor : ZMod params.plaintextModulus) * hone

omit [Div F] in
theorem bgv_sound {params : Bgvrns.LeveledParameters} (h : Bgvrns.Setting cache params k psi)
    (ht : 1 < params.plaintextModulus) (htlt : params.plaintextModulus < 2 ^ 62) :
    (bgvCompress cache params : CompressRNS F).Sound k psi params.plaintextModulus
      (bgvScaled params) := by
  have hlevels : (bgvCompress cache params : CompressRNS F).levelsToDrop = 1 := by
    unfold CompressRNS.levelsToDrop
    split <;> rfl
  constructor
  · rw [hlevels]
    exact Nat.one_pos
  · intro c xs hc hxs _ hroom
    rw [hlevels] at hroom ⊢
    have hroom' : c.level + 1 < params.moduliQ.length := hroom
    rcases hc.first with ⟨x, hx, _, hlength⟩
    have hlength' : x.length = params.moduliQ.length - c.level := hlength
    have hdivisions : forall y d, DCRTPoly.Encodes k psi .EVALUATION
        (params.moduliQ.take (params.moduliQ.length - c.level)) y d ->
        exists z r, (List.range 1).foldlM (Bgvrns.divideByLast cache params
            (params.moduliQ.length - c.level)) d = some r ∧
          DCRTPoly.Encodes k psi .EVALUATION
            (params.moduliQ.take (params.moduliQ.length - c.level - 1)) z r ∧
          DCRTPoly.DividedBy params.plaintextModulus ((params.moduliQ.take
            (params.moduliQ.length - c.level)).drop (params.moduliQ.length - c.level - 1)).prod
            y z := by
      intro y d hyd
      rcases Bgvrns.divideByLast_run h (show 1 < params.moduliQ.length - c.level by omega)
        (Nat.sub_le _ _) hyd with ⟨r, z, hr, hz, hdivided⟩
      exact ⟨z, r, hr, hz, hdivided⟩
    rcases mapM_encodes hxs hdivisions with ⟨ys, cv, hcv, hys, hdivided⟩
    have hl : params.moduliQ.length - c.level - 1 < params.moduliQ.length := by omega
    have hfactor : exists f, (if params.Flexible then Bgvrns.rescaledFactorInt params
          (params.moduliQ.length - c.level) 1 c.scalingFactorInt
        else some c.scalingFactorInt) = some f ∧ bgvScaled params
          (params.moduliQ.length - c.level) (params.moduliQ.length - (c.level + 1)) c
          { c with scalingFactorInt := f } := by
      by_cases hflexible : params.Flexible
      · rcases rescaledFactorInt_spec h ht htlt hflexible hl c.scalingFactorInt with ⟨f, hf, hmul⟩
        refine ⟨f, ?_, ?_⟩
        · rw [if_pos hflexible,
            show params.moduliQ.length - c.level = params.moduliQ.length - c.level - 1 + 1 by omega]
          exact hf
        · unfold bgvScaled
          rw [if_pos hflexible,
            show params.moduliQ.length - (c.level + 1) = params.moduliQ.length - c.level - 1 by omega,
            List.drop_eq_getElem_cons (by rw [List.length_take]; omega), List.getElem_take,
            List.drop_of_length_le (by rw [List.length_take]; omega), List.prod_singleton]
          exact hmul
      · refine ⟨_, if_neg hflexible, ?_⟩
        unfold bgvScaled
        rw [if_neg hflexible]
    rcases hfactor with ⟨f, hf, hscaled⟩
    have hrun : Bgvrns.modReduceInternalInPlace cache params c 1 = some { c with
        elements := cv
        level := c.level + 1
        noiseScaleDeg := c.noiseScaleDeg - 1
        scalingFactorInt := f } := by
      unfold Bgvrns.modReduceInternalInPlace
      simp only [hx, hlength', Option.bind_eq_bind, Option.bind_some, hcv, hf]
      rw [if_pos (by omega)]
      rfl
    refine ⟨_, ys, hrun, rfl, rfl, ?_, ?_, hscaled⟩
    · exact hys
    · exact hdivided
  · intro l c
    unfold bgvScaled
    split
    · rw [List.drop_of_length_le (by rw [List.length_take]; omega), List.prod_nil, one_mul]
    · rfl
  · intro l m n c d e hnm hml _ hcd hde
    unfold bgvScaled at hcd hde ⊢
    split
    · next hflexible =>
        rw [if_pos hflexible] at hcd hde
        rw [<- drop_take_append _ hnm hml, List.prod_append, Nat.cast_mul, Nat.cast_mul, <- hcd,
          Nat.cast_mul, <- hde, Nat.cast_mul]
        ring
    · next hnot =>
        rw [if_neg hnot] at hcd hde
        exact hde.trans hcd

end Schemes

/-! ## Compressed ciphertexts -/

section Compressed

variable {F : Type}

structure HasTowers (moduliQ : List Nat) (k : Nat) (format : Format) (l : Nat)
    (c : Ciphertext F) : Prop where
  pos : 0 < l
  le : l <= moduliQ.length
  ne_nil : c.elements ≠ []
  elements : forall x, x ∈ c.elements -> DCRTPoly.WellFormed (2 ^ k) format (moduliQ.take l) x

theorem HasTowers.first {moduliQ : List Nat} {k : Nat} {format : Format} {l : Nat}
    {c : Ciphertext F} (h : HasTowers moduliQ k format l c) :
    exists x, c.elements[0]? = some x ∧ x.length = l := by
  have hx := List.getElem?_eq_getElem (List.length_pos_iff.mpr h.ne_nil)
  have hlength := (h.elements _ (List.mem_of_getElem? hx)).length_eq
  rw [List.length_take, Nat.min_eq_left h.le] at hlength
  exact ⟨_, hx, hlength⟩

variable {cache : Poly.TableCache} {k : Nat} {psi : Nat -> Nat} {she : CompressRNS F} {t : Nat}
  {scaled : Nat -> Nat -> Ciphertext F -> Ciphertext F -> Prop}

theorem levelReduce_encodes {moduliQ : List Nat} {c : Ciphertext F} {n m : Nat} (hm : 0 < m)
    (hmn : m <= n) (hn : n <= moduliQ.length) {xs : List (Nat -> Int)}
    (h : EncodesAll k psi .EVALUATION (moduliQ.take n) xs c.elements) :
    exists cv, levelReduceInternalInPlace c (n - m) =
        some { c with elements := cv, level := c.level + (n - m) } ∧
      EncodesAll k psi .EVALUATION (moduliQ.take m) xs cv := by
  have hlength : (moduliQ.take n).length = n := by
    rw [List.length_take, Nat.min_eq_left hn]
  have hdrop : forall x d, DCRTPoly.Encodes k psi .EVALUATION (moduliQ.take n) x d ->
      exists y r, DCRTPoly.dropLastElements d (n - m) = some r ∧
        DCRTPoly.Encodes k psi .EVALUATION (moduliQ.take m) y r ∧ x = y := by
    intro x d hxd
    rcases dropLastElements_encodes hxd hm (by omega) with ⟨r, hr, hencodes⟩
    rw [hlength] at hr
    rw [List.take_take, Nat.min_eq_left hmn] at hencodes
    exact ⟨x, r, hr, hencodes, rfl⟩
  rcases mapM_encodes h hdrop with ⟨ys, cv, hcv, hys, heq⟩
  rw [List.forall₂_eq_eq_eq] at heq
  cases heq
  refine ⟨cv, ?_, hys⟩
  unfold levelReduceInternalInPlace
  rw [hcv]
  rfl

/-- What `Compress` returns for a ciphertext with `l` towers; the rescalings leave `n` of them. -/
structure Compressed (moduliQ : List Nat) (cache : Poly.TableCache) (k : Nat) (psi : Nat -> Nat)
    (decoding : Decoding) (format : Format) (l n P towersLeft : Nat) (c rescaled r : Ciphertext F) :
    Prop where
  towers : HasTowers moduliQ k format (min towersLeft n) r
  count : r.elements.length = c.elements.length
  metadata : exists level, r = { rescaled with elements := r.elements, level := level }
  message : KeepsMessage cache k psi moduliQ decoding l (min towersLeft n) P c.elements r.elements
  identity : n <= towersLeft -> r = rescaled

theorem CompressRNS.compress_of_rescaled (hk : 0 < k) (hk31 : k <= 31)
    (hready : DCRTPoly.ReadyChain cache k psi she.moduliQ)
    (hcoprime : she.moduliQ.Pairwise Nat.Coprime) {c r : Ciphertext F} {l n towersLeft deg : Nat}
    (hc : HasTowers she.moduliQ k .EVALUATION l c)
    (haccepts : she.technique.IsComposite -> towersLeft % she.compositeDegree = 0)
    (hpos : 0 < towersLeft) (hn : 0 < n) (hnl : n <= l) (hr : she.reduceDegree c deg = some r)
    {xs ys : List (Nat -> Int)}
    (hxs : EncodesAll k psi .EVALUATION (she.moduliQ.take l) xs c.elements)
    (hys : EncodesAll k psi .EVALUATION (she.moduliQ.take n) ys r.elements)
    (hdivided : List.Forall₂ (DCRTPoly.DividedBy t ((she.moduliQ.take l).drop n).prod) xs ys) :
    exists r', she.compress c towersLeft deg = some r' ∧
      Compressed she.moduliQ cache k psi (.centered t) .EVALUATION l n
        ((she.moduliQ.take l).drop n).prod towersLeft c r r' := by
  have hle := hc.le
  have hlength : r.elements.length = c.elements.length := by
    rw [<- hys.length_eq, <- hdivided.length_eq, hxs.length_eq]
  have hne : r.elements ≠ [] := by
    rw [<- List.length_pos_iff, hlength]
    exact List.length_pos_iff.mpr hc.ne_nil
  have hrtowers : HasTowers she.moduliQ k .EVALUATION n r :=
    ⟨hn, by omega, hne, fun _ hy => hys.wellFormed hy⟩
  rcases hrtowers.first with ⟨x, hx, hxlength⟩
  have hunfold : she.compress c towersLeft deg =
      if towersLeft < n then levelReduceInternalInPlace r (n - towersLeft) else some r := by
    unfold CompressRNS.compress
    rw [if_neg (fun hrefused => hrefused.2 (haccepts hrefused.1)), hr]
    simp only [Option.bind_eq_bind, Option.bind_some, hx, hxlength]
    rfl
  have hkeeps : forall {m : Nat} {cv : List DCRTPoly}, 0 < m -> m <= n ->
      EncodesAll k psi .EVALUATION (she.moduliQ.take m) ys cv ->
      KeepsMessage cache k psi she.moduliQ (.centered t) l m
        ((she.moduliQ.take l).drop n).prod c.elements cv := by
    intro m cv hm hmn hcv
    exact keepsMessage_of_divided hk hk31 hready hcoprime hm hmn hnl hle
      (fun t ht => by cases ht) hxs hc.ne_nil hcv hdivided
  rcases Nat.lt_or_ge towersLeft n with hlt | hge
  · rcases levelReduce_encodes hpos hlt.le (show n <= she.moduliQ.length by omega) hys with
      ⟨cv, hcv, hcvencodes⟩
    rw [if_pos hlt, hcv] at hunfold
    have hcvlength : cv.length = r.elements.length := by
      rw [<- hcvencodes.length_eq, hys.length_eq]
    have hcvne : cv ≠ [] := by
      rw [<- List.length_pos_iff, hcvlength]
      exact List.length_pos_iff.mpr hne
    refine ⟨_, hunfold, ?_⟩
    constructor
    · rw [Nat.min_eq_left hlt.le]
      exact ⟨hpos, by omega, hcvne, fun y hy => hcvencodes.wellFormed hy⟩
    · exact hcvlength.trans hlength
    · exact ⟨_, rfl⟩
    · rw [Nat.min_eq_left hlt.le]
      exact hkeeps hpos hlt.le hcvencodes
    · intro hle'
      omega
  · rw [if_neg (by omega)] at hunfold
    refine ⟨r, hunfold, ?_⟩
    constructor
    · rw [Nat.min_eq_right hge]
      exact hrtowers
    · exact hlength
    · exact ⟨r.level, rfl⟩
    · rw [Nat.min_eq_right hge]
      exact hkeeps hn (le_refl n) hys
    · intro _
      rfl

theorem CompressRNS.compress_spec (h : she.Sound k psi t scaled) (hk : 0 < k) (hk31 : k <= 31)
    (hready : DCRTPoly.ReadyChain cache k psi she.moduliQ)
    (hcoprime : she.moduliQ.Pairwise Nat.Coprime) {c : Ciphertext F} {l towersLeft deg : Nat}
    (hc : HasTowers she.moduliQ k .EVALUATION l c) (hl : l + c.level = she.moduliQ.length)
    (haccepts : she.technique.IsComposite -> towersLeft % she.compositeDegree = 0)
    (hpos : 0 < towersLeft) {n : Nat} (hn : n + she.levelsToDrop * (c.noiseScaleDeg - deg) = l)
    (hnpos : 0 < n) :
    exists r r', she.reduceDegree c deg = some r ∧ r.noiseScaleDeg <= deg ∧ scaled l n c r ∧
      she.compress c towersLeft deg = some r' ∧
      Compressed she.moduliQ cache k psi (.centered t) .EVALUATION l n
        ((she.moduliQ.take l).drop n).prod towersLeft c r r' := by
  have hlevel : she.moduliQ.length - c.level = l := by omega
  have hwf : WellFormedElements (2 ^ k) (she.moduliQ.take l) c.elements := hc.elements
  rcases exists_encodesAll hk hk31 (fun q hq => hready q (List.mem_of_mem_take hq))
    (hcoprime.sublist (List.take_sublist _ _)) hwf with ⟨xs, hxs⟩
  have hxs' := hxs
  rw [<- hlevel] at hxs'
  have hleveled : Leveled she.moduliQ (2 ^ k) c :=
    leveled_of_encodesAll (by have := hc.pos; omega) hc.ne_nil hxs'
  rcases reduceDegree_spec h hleveled hxs' (show c.level + she.levelsToDrop *
    (c.noiseScaleDeg - deg) < she.moduliQ.length by omega) with
    ⟨r, hr, hstate, hrlevel, hdegree⟩
  rcases hstate.elements with ⟨ys, hys, hdivided⟩
  have hscaled := hstate.scaled
  rw [show she.moduliQ.length - r.level = n by omega] at hys hdivided hscaled
  rw [hlevel] at hdivided hscaled
  rcases she.compress_of_rescaled hk hk31 hready hcoprime hc haccepts hpos hnpos (by omega) hr
    hxs hys hdivided with ⟨r', hr', hcompressed⟩
  exact ⟨r, r', hr, hdegree, hscaled, hr', hcompressed⟩

end Compressed

/-! ## Divisions in either format -/

section Formats

variable {cache : Poly.TableCache} {moduliQ : List Nat} {format : Format}

theorem dropLastElementAndScale_some {consts inverses : List Nat} {a r : DCRTPoly}
    (h : DCRTPoly.dropLastElementAndScale cache consts inverses format a = some r) :
    r.length + 1 = a.length ∧ 0 < r.length ∧ forall i w, r[i]? = some w ->
      exists last v, a[i]? = some v ∧
        DCRTPoly.dividedTower cache consts inverses format last i v = some w := by
  unfold DCRTPoly.dropLastElementAndScale at h
  rcases Option.bind_eq_some_iff.mp h with ⟨last, _, h⟩
  rcases Option.bind_eq_some_iff.mp h with ⟨last', _, h⟩
  rcases Option.bind_eq_some_iff.mp h with ⟨kept, hkept, h⟩
  have hlength := length_of_mapM h
  rw [List.length_range] at hlength
  unfold DCRTPoly.dropLastElement at hkept
  split at hkept
  · cases hkept
  · split at hkept
    · cases hkept
    · cases hkept
      rw [List.length_dropLast] at hlength
      refine ⟨by omega, by omega, ?_⟩
      intro i w hw
      have hi := (List.getElem?_eq_some_iff.mp hw).1
      have hrange : (List.range a.dropLast.length)[i]? = some i := by
        rw [List.getElem?_range]
        rw [List.length_dropLast]
        omega
      rcases mapM_getElem? h hrange with ⟨w', hw', htower⟩
      cases hw.symm.trans hw'
      rcases Option.bind_eq_some_iff.mp htower with ⟨v, hv, hdivided⟩
      rw [List.getElem?_dropLast, if_pos (by omega)] at hv
      exact ⟨last', v, hv, hdivided⟩

theorem dividedTower_format {consts inverses : List Nat} {last v w : Poly} {i : Nat}
    (h : DCRTPoly.dividedTower cache consts inverses .COEFFICIENT last i v = some w) :
    w.format = .EVALUATION <-> v.format = .COEFFICIENT := by
  unfold DCRTPoly.dividedTower at h
  rcases Option.bind_eq_some_iff.mp h with ⟨_, _, h⟩
  rcases Option.bind_eq_some_iff.mp h with ⟨_, _, h⟩
  rcases Option.bind_eq_some_iff.mp h with ⟨_, _, h⟩
  rcases Option.bind_eq_some_iff.mp h with ⟨_, _, h⟩
  rcases Option.bind_eq_some_iff.mp h with ⟨u, hu, h⟩
  rcases Option.bind_eq_some_iff.mp h with ⟨x, hx, h⟩
  have huformat : u.format = v.format := by
    unfold Poly.timesInteger at hu
    rcases Option.map_eq_some_iff.mp hu with ⟨_, _, rfl⟩
    rfl
  have hxformat : x.format = u.format := by
    unfold Poly.plusEq at hx
    split at hx
    · cases hx
    · cases hx
      rfl
  rw [if_pos rfl] at h
  unfold Poly.switchFormat at h
  rcases Option.bind_eq_some_iff.mp h with ⟨_, _, h⟩
  rw [<- huformat, <- hxformat]
  cases hformat : x.format with
  | EVALUATION =>
      rw [hformat] at h
      rcases Option.bind_eq_some_iff.mp h with ⟨_, _, heq⟩
      cases heq
      constructor
      · intro hfalse
        cases hfalse
      · intro hfalse
        cases hfalse
  | COEFFICIENT =>
      rw [hformat] at h
      rcases Option.bind_eq_some_iff.mp h with ⟨_, _, heq⟩
      cases heq
      exact ⟨fun _ => rfl, fun _ => rfl⟩

end Formats

/-! ## Divisions of BFV ciphertexts -/

section Bfv

variable {F : Type} {cache : Poly.TableCache} {k : Nat} {psi : Nat -> Nat}
  {params : CompressBFVRNS} {format : Format}

theorem length_le_of_coprime {moduli : List Nat}
    (hready : DCRTPoly.ReadyChain cache k psi moduli) (hcoprime : moduli.Pairwise Nat.Coprime) :
    moduli.length <= 2 ^ 60 := by
  have hnodup := nodup_of_coprime hcoprime fun q hq => (hready q hq).modulus.one_lt
  have hsubset : moduli.toFinset ⊆ Finset.range (2 ^ 60) := by
    intro q hq
    exact Finset.mem_range.mpr (hready q (List.mem_toFinset.mp hq)).modulus.lt
  have hcard := Finset.card_le_card hsubset
  rwa [List.toFinset_card_of_nodup hnodup, Finset.card_range] at hcard

theorem divideElements_some {diffQl l : Nat} {cv cv' : List DCRTPoly}
    (h : divideElements cache params.moduliQ format diffQl cv l = some cv') :
    cv'.length = cv.length ∧ forall r, r ∈ cv' -> exists c consts inverses, c ∈ cv ∧
      DCRTPoly.dropLastElementAndScale cache consts inverses format c = some r := by
  constructor
  · exact length_of_mapM h
  · intro r hr
    rcases List.mem_iff_getElem?.mp hr with ⟨j, hj⟩
    have hlt := (List.getElem?_eq_some_iff.mp hj).1
    rw [length_of_mapM h] at hlt
    have hc := List.getElem?_eq_getElem hlt
    rcases mapM_getElem? h hc with ⟨r', hr', hdivided⟩
    cases hj.symm.trans hr'
    exact ⟨_, _, _, List.getElem_mem hlt, hdivided⟩

structure TowersLeft (l length i : Nat) (cv : List DCRTPoly) : Prop where
  length_eq : cv.length = length
  towers : forall x, x ∈ cv -> x.length + i = l ∧ 0 < x.length

theorem divideElements_towersLeft {diffQl l length i : Nat} {cv cv' : List DCRTPoly}
    (hcv : TowersLeft l length i cv)
    (h : divideElements cache params.moduliQ format diffQl cv i = some cv') :
    TowersLeft l length (i + 1) cv' := by
  rcases divideElements_some h with ⟨hlength, hdivided⟩
  constructor
  · rw [hlength, hcv.length_eq]
  · intro r hr
    rcases hdivided r hr with ⟨c, consts, inverses, hc, hrun⟩
    rcases dropLastElementAndScale_some hrun with ⟨htowers, hpos, _⟩
    have hsum := (hcv.towers c hc).1
    constructor
    · rw [<- hsum, <- htowers]
      ring
    · exact hpos

/-- The towers of elements in the coefficient format alternate between the formats. -/
def Alternates (i : Nat) (cv : List DCRTPoly) : Prop :=
  forall x, x ∈ cv -> forall w, w ∈ x -> (w.format = .EVALUATION <-> i % 2 = 1)

theorem divideElements_alternates {diffQl i : Nat} {cv cv' : List DCRTPoly}
    (hcv : Alternates i cv)
    (h : divideElements cache params.moduliQ .COEFFICIENT diffQl cv i = some cv') :
    Alternates (i + 1) cv' := by
  intro r hr w hw
  rcases (divideElements_some h).2 r hr with ⟨c, consts, inverses, hc, hrun⟩
  rcases List.mem_iff_getElem?.mp hw with ⟨j, hj⟩
  rcases (dropLastElementAndScale_some hrun).2.2 j w hj with ⟨last, v, hv, hdivided⟩
  have hbefore := hcv c hc v (List.mem_of_getElem? hv)
  rw [dividedTower_format hdivided]
  cases hformat : v.format with
  | EVALUATION =>
      have hodd := hbefore.mp hformat
      constructor
      · intro hfalse
        cases hfalse
      · intro heven
        omega
  | COEFFICIENT =>
      have hnot : ¬ i % 2 = 1 := by
        intro hodd
        cases hformat.symm.trans (hbefore.mpr hodd)
      constructor
      · intro _
        omega
      · intro _
        rfl

variable {c : Ciphertext F} {l towersLeft : Nat}

theorem HasTowers.allTowers (h : HasTowers params.moduliQ k format l c) :
    TowersLeft l c.elements.length 0 c.elements := by
  constructor
  · rfl
  · intro x hx
    have hlength := (h.elements x hx).length_eq
    rw [List.length_take, Nat.min_eq_left h.le] at hlength
    exact ⟨hlength, hlength ▸ h.pos⟩

def CompressBFVRNS.Accepts (params : CompressBFVRNS) : Prop :=
  params.multiplicationTechnique ≠ .BEHZ ∧ params.multiplicationTechnique ≠ .HPS ∧
    params.encryptionTechnique ≠ .EXTENDED

theorem CompressBFVRNS.compress_eq (haccepts : params.Accepts)
    (hc : HasTowers params.moduliQ k format l c) (deg : Nat) :
    params.compress cache format c towersLeft deg =
      ((List.range (word (l + (2 ^ 64 - towersLeft)))).foldlM
        (divideElements cache params.moduliQ format (params.moduliQ.length - l))
        c.elements).map fun cv => { c with elements := cv } := by
  rcases hc.first with ⟨x, hx, hlength⟩
  unfold CompressBFVRNS.compress
  rw [if_neg (not_or.mpr ⟨haccepts.1, haccepts.2.1⟩), if_neg haccepts.2.2]
  simp only [hx, hlength, Option.bind_eq_bind, Option.bind_some]
  cases (List.range (word (l + (2 ^ 64 - towersLeft)))).foldlM
    (divideElements cache params.moduliQ format (params.moduliQ.length - l)) c.elements <;> rfl

/-- The difference does not wrap where it is not negative. -/
theorem word_levels (hle : towersLeft <= l) (hl : l <= 2 ^ 60) :
    word (l + (2 ^ 64 - towersLeft)) = l - towersLeft := by
  have hsum : l + (2 ^ 64 - towersLeft) = 2 ^ 64 + (l - towersLeft) := by omega
  rw [hsum]
  show (2 ^ 64 + (l - towersLeft)) % 2 ^ 64 = _
  rw [Nat.add_mod_left]
  exact Nat.mod_eq_of_lt (by omega)

/-- A difference that wraps is more than the number of towers. -/
theorem le_word_levels (hlt : l < towersLeft) (htowers : towersLeft < 2 ^ 32) :
    2 ^ 62 <= word (l + (2 ^ 64 - towersLeft)) := by
  show 2 ^ 62 <= (l + (2 ^ 64 - towersLeft)) % 2 ^ 64
  rw [Nat.mod_eq_of_lt (by omega)]
  omega

theorem CompressBFVRNS.compress_none (haccepts : params.Accepts)
    (hc : HasTowers params.moduliQ k format l c) (hl : l <= 2 ^ 60) (hlt : l < towersLeft)
    (htowers : towersLeft < 2 ^ 32) (deg : Nat) :
    params.compress cache format c towersLeft deg = none := by
  rw [CompressBFVRNS.compress_eq haccepts hc, Option.map_eq_none_iff]
  have hlevels := le_word_levels hlt htowers
  cases hrun : (List.range (word (l + (2 ^ 64 - towersLeft)))).foldlM
      (divideElements cache params.moduliQ format (params.moduliQ.length - l)) c.elements with
  | none => rfl
  | some cv =>
      have hleft := foldlM_range_invariant (TowersLeft l c.elements.length) hc.allTowers
        (fun _ _ _ hs h => divideElements_towersLeft hs h) hrun
      have hpos : 0 < cv.length := by
        rw [hleft.length_eq]
        exact List.length_pos_iff.mpr hc.ne_nil
      have hsum := (hleft.towers _ (List.getElem_mem hpos)).1
      omega

theorem CompressBFVRNS.even_of_coefficient (haccepts : params.Accepts)
    (hc : HasTowers params.moduliQ k .COEFFICIENT l c) (hl : l <= 2 ^ 60)
    (hle : towersLeft <= l) {deg : Nat} {r : Ciphertext F}
    (hrun : params.compress cache .COEFFICIENT c towersLeft deg = some r) {m : Nat}
    (hr : HasTowers params.moduliQ k .COEFFICIENT m r) : (l - towersLeft) % 2 = 0 := by
  rw [CompressBFVRNS.compress_eq haccepts hc, word_levels hle hl] at hrun
  rcases Option.map_eq_some_iff.mp hrun with ⟨cv, hcv, rfl⟩
  have hformats : forall {d : Ciphertext F} {n : Nat},
      HasTowers params.moduliQ k .COEFFICIENT n d -> forall x, x ∈ d.elements ->
        forall w, w ∈ x -> w.format = .COEFFICIENT := by
    intro d n hd x hx w hw
    rcases List.mem_iff_getElem?.mp hw with ⟨j, hj⟩
    have hwf := hd.elements x hx
    have hlt := (List.getElem?_eq_some_iff.mp hj).1
    rw [hwf.length_eq] at hlt
    exact (hwf.get j _ w (List.getElem?_eq_getElem hlt) hj).2.1
  have hinit : Alternates 0 c.elements := by
    intro x hx w hw
    rw [hformats hc x hx w hw]
    constructor
    · intro hfalse
      cases hfalse
    · intro hfalse
      cases hfalse
  have halternates := foldlM_range_invariant Alternates hinit
    (fun _ _ _ hs h => divideElements_alternates hs h) hcv
  have hpos := List.length_pos_iff.mpr hr.ne_nil
  have hxlength := (hr.elements _ (List.getElem_mem hpos)).length_eq
  rw [List.length_take, Nat.min_eq_left hr.le] at hxlength
  have htower : 0 < (cv.get ⟨0, hpos⟩).length := by
    show 0 < (cv[0]).length
    rw [hxlength]
    exact hr.pos
  have hformat := hformats hr _ (List.getElem_mem hpos) _ (List.getElem_mem htower)
  have hiff := halternates _ (List.getElem_mem hpos) _ (List.getElem_mem htower)
  have hnot : ¬ (l - towersLeft) % 2 = 1 := by
    intro hodd
    cases hformat.symm.trans (hiff.mpr hodd)
  omega

theorem CompressBFVRNS.compress_spec (hk : 0 < k) (hk31 : k <= 31)
    (hready : DCRTPoly.ReadyChain cache k psi params.moduliQ)
    (hcoprime : params.moduliQ.Pairwise Nat.Coprime) (haccepts : params.Accepts)
    (hc : HasTowers params.moduliQ k format l c) (hpos : 0 < towersLeft)
    (hcond : towersLeft = l ∨ towersLeft < l ∧ format = .EVALUATION) (t deg : Nat) :
    exists r, params.compress cache format c towersLeft deg = some r ∧
      Compressed params.moduliQ cache k psi (.rounded t) format l l
        ((params.moduliQ.take l).drop towersLeft).prod towersLeft c c r := by
  have hl : l <= 2 ^ 60 := hc.le.trans (length_le_of_coprime hready hcoprime)
  have hle : towersLeft <= l := by omega
  rw [CompressBFVRNS.compress_eq haccepts hc, word_levels hle hl]
  rcases hcond with heq | ⟨hlt, rfl⟩
  · rw [heq, Nat.sub_self]
    refine ⟨c, rfl, ?_⟩
    constructor
    · rw [Nat.min_self]
      exact hc
    · rfl
    · exact ⟨c.level, rfl⟩
    · rw [Nat.min_self, List.drop_of_length_le (by rw [List.length_take]; omega), List.prod_nil]
      exact keepsMessage_refl _ _ _
    · intro _
      rfl
  · have hwf : WellFormedElements (2 ^ k) (params.moduliQ.take l) c.elements := hc.elements
    rcases exists_encodesAll hk hk31 (fun q hq => hready q (List.mem_of_mem_take hq))
      (hcoprime.sublist (List.take_sublist _ _)) hwf with ⟨xs, hxs⟩
    rcases divideElements_run hk hk31 hready hcoprime (show l - towersLeft < l by omega) hc.le
      hxs with ⟨ys, cv, hcv, hys, hdivided⟩
    rw [show l - (l - towersLeft) = towersLeft by omega] at hys hdivided
    have hlength : cv.length = c.elements.length := by
      rw [<- hys.length_eq, <- hdivided.length_eq, hxs.length_eq]
    have hne : cv ≠ [] := by
      rw [<- List.length_pos_iff, hlength]
      exact List.length_pos_iff.mpr hc.ne_nil
    refine ⟨{ c with elements := cv }, ?_, ?_⟩
    · rw [hcv]
      rfl
    · constructor
      · rw [Nat.min_eq_left hle]
        exact ⟨hpos, hle.trans hc.le, hne, fun y hy => hys.wellFormed hy⟩
      · exact hlength
      · exact ⟨c.level, rfl⟩
      · rw [Nat.min_eq_left hle]
        exact keepsMessage_of_divided hk hk31 hready hcoprime hpos (le_refl _) hle hc.le
          (fun _ _ => rfl) hxs hc.ne_nil hys hdivided
      · intro hge
        omega

end Bfv

/-! ## All schemes -/

/-- The schemes with a `Compress`.  Only the decryption of BFV uses its plaintext modulus. -/
inductive CompressScheme (F : Type) where
  | ckksrns (params : Ckksrns.LeveledParameters F)
  | bgvrns (params : Bgvrns.LeveledParameters)
  | bfvrns (params : CompressBFVRNS) (plaintextModulus : Nat)

namespace CompressScheme

variable {F : Type} [Div F] (cache : Poly.TableCache) (k : Nat) (psi : Nat -> Nat)
  (format : Format) (l n towersLeft noiseScaleDeg : Nat) (c r : Ciphertext F)

def moduliQ : CompressScheme F -> List Nat
  | ckksrns params => params.moduliQ
  | bgvrns params => params.moduliQ
  | bfvrns params _ => params.moduliQ

def compress : CompressScheme F -> Option (Ciphertext F)
  | ckksrns params =>
      compressContext (ckksCompress cache params).compress c towersLeft noiseScaleDeg
  | bgvrns params =>
      compressContext (bgvCompress cache params).compress c towersLeft noiseScaleDeg
  | bfvrns params _ => compressContext (params.compress cache format) c towersLeft noiseScaleDeg

def rescale : CompressScheme F -> Option (Ciphertext F)
  | ckksrns params => (ckksCompress cache params).reduceDegree c noiseScaleDeg
  | bgvrns params => (bgvCompress cache params).reduceDegree c noiseScaleDeg
  | bfvrns _ _ => some c

omit [Div F] in
def rescaledTowers : CompressScheme F -> Nat
  | ckksrns params =>
      (if params.technique.IsComposite then params.compositeDegree else 1) *
        (c.noiseScaleDeg - noiseScaleDeg)
  | bgvrns _ => c.noiseScaleDeg - noiseScaleDeg
  | bfvrns _ _ => 0

/-- The rescalings reach the degree and divide the scaling factor. -/
def Rescaled : CompressScheme F -> Prop
  | ckksrns params => r.noiseScaleDeg <= noiseScaleDeg ∧ ckksScaled params l n c r
  | bgvrns params => r.noiseScaleDeg <= noiseScaleDeg ∧ bgvScaled params l n c r
  | bfvrns _ _ => r = c

def decoding : CompressScheme F -> Decoding
  | ckksrns _ => .centered 1
  | bgvrns params => .centered params.plaintextModulus
  | bfvrns _ t => .rounded t

def divisor : CompressScheme F -> Nat
  | ckksrns params => ((params.moduliQ.take l).drop n).prod
  | bgvrns params => ((params.moduliQ.take l).drop n).prod
  | bfvrns params _ => ((params.moduliQ.take l).drop towersLeft).prod

def Accepts : CompressScheme F -> Prop
  | ckksrns params =>
      params.technique.IsComposite -> towersLeft % params.compositeDegree = 0
  | bgvrns _ => True
  | bfvrns params _ => params.Accepts

/-- Ciphertexts of the RNS schemes are evaluations, and their level counts the missing towers. -/
def Admits : CompressScheme F -> Prop
  | ckksrns params => format = .EVALUATION ∧ l + c.level = params.moduliQ.length
  | bgvrns params => format = .EVALUATION ∧ l + c.level = params.moduliQ.length
  | bfvrns _ _ => True

def Setting : CompressScheme F -> Prop
  | ckksrns params => Ckksrns.Setting cache params k psi
  | bgvrns params => Bgvrns.Setting cache params k psi ∧ 1 < params.plaintextModulus ∧
      params.plaintextModulus < 2 ^ 62
  | bfvrns params _ => 0 < k ∧ k <= 31 ∧ DCRTPoly.ReadyChain cache k psi params.moduliQ ∧
      params.moduliQ.Pairwise Nat.Coprime

/-- `Compress` returns, with the towers and the message that are expected. -/
def Compresses (scheme : CompressScheme F) : Prop :=
  exists rescaled r, scheme.rescale cache noiseScaleDeg c = some rescaled ∧
    scheme.Rescaled l (l - scheme.rescaledTowers noiseScaleDeg c) noiseScaleDeg c rescaled ∧
    scheme.compress cache format towersLeft noiseScaleDeg c = some r ∧
    Compressed scheme.moduliQ cache k psi scheme.decoding format l
      (l - scheme.rescaledTowers noiseScaleDeg c)
      (scheme.divisor l (l - scheme.rescaledTowers noiseScaleDeg c) towersLeft) towersLeft c
      rescaled r

/-- Rescalings lower the degree; BFV keeps all towers or has evaluations and drops some. -/
def Condition : CompressScheme F -> Prop
  | ckksrns params => params.technique.IsComposite ∨ params.compositeDegree = 1 ∨
      c.noiseScaleDeg <= noiseScaleDeg
  | bgvrns _ => True
  | bfvrns _ _ => towersLeft = l ∨ towersLeft < l ∧ format = .EVALUATION

/-- The condition, or an even number of divisions of elements that are not evaluations. -/
def Necessary : CompressScheme F -> Prop
  | ckksrns params => params.technique.IsComposite ∨ params.compositeDegree = 1 ∨
      c.noiseScaleDeg <= noiseScaleDeg
  | bgvrns _ => True
  | bfvrns _ _ => towersLeft <= l ∧ (format = .COEFFICIENT -> (l - towersLeft) % 2 = 0)

end CompressScheme

section Outcomes

variable {F : Type} [Div F] {cache : Poly.TableCache} {k : Nat} {psi : Nat -> Nat}
  {format : Format} {l towersLeft deg : Nat} {c : Ciphertext F}

theorem ckks_reduceDegree_none {params : Ckksrns.LeveledParameters F}
    (htechnique : ¬ params.technique.IsComposite) (hdegree : 1 < params.compositeDegree)
    (hlt : deg < c.noiseScaleDeg) : (ckksCompress cache params).reduceDegree c deg = none := by
  cases hrun : (ckksCompress cache params).reduceDegree c deg with
  | none => rfl
  | some r =>
      have hlevels : (ckksCompress cache params).levelsToDrop = 1 := if_neg htechnique
      unfold CompressRNS.reduceDegree at hrun
      rw [hlevels] at hrun
      have hkeep : forall s s' : Ciphertext F, s.noiseScaleDeg = c.noiseScaleDeg ->
          decide (s.noiseScaleDeg > deg) = true ->
          Ckksrns.modReduceInternalInPlace cache params s 1 = some s' ->
          s'.noiseScaleDeg = c.noiseScaleDeg := by
        intro s s' hs _ hs'
        cases hx : s.elements[0]? with
        | none =>
            unfold Ckksrns.modReduceInternalInPlace at hs'
            rw [hx] at hs'
            cases hs'
        | some x =>
            rw [ckks_modReduce_eq params hx] at hs'
            rcases Option.map_eq_some_iff.mp hs' with ⟨cv, _, rfl⟩
            show s.noiseScaleDeg - 1 / params.compositeDegree = c.noiseScaleDeg
            rw [Nat.div_eq_of_lt hdegree, Nat.sub_zero, hs]
      rcases whileFuel_invariant (fun s : Ciphertext F => s.noiseScaleDeg = c.noiseScaleDeg)
        hkeep rfl hrun with ⟨hsame, htest⟩
      have hnot := of_decide_eq_false htest
      omega

theorem ckks_compresses {params : Ckksrns.LeveledParameters F}
    (h : Ckksrns.Setting cache params k psi)
    (hc : HasTowers params.moduliQ k .EVALUATION l c)
    (hl : l + c.level = params.moduliQ.length)
    (haccepts : params.technique.IsComposite -> towersLeft % params.compositeDegree = 0)
    (hdeg : deg <= towersLeft) (hpos : 0 < towersLeft)
    (hroom : (CompressScheme.ckksrns params).rescaledTowers deg c < l)
    (hcond : params.technique.IsComposite ∨ params.compositeDegree = 1 ∨
      c.noiseScaleDeg <= deg) :
    (CompressScheme.ckksrns params).Compresses cache k psi .EVALUATION l towersLeft deg c := by
  have hcompress : forall r', (ckksCompress cache params).compress c towersLeft deg = some r' ->
      (CompressScheme.ckksrns params).compress cache .EVALUATION towersLeft deg c = some r' := by
    intro r' hr'
    show compressContext _ _ _ _ = _
    rw [compressContext, if_neg (not_lt.mpr hdeg)]
    exact hr'
  have hsound : params.technique.IsComposite ∨ params.compositeDegree = 1 ->
      (CompressScheme.ckksrns params).Compresses cache k psi .EVALUATION l towersLeft deg c := by
    intro hdegree
    rcases CompressRNS.compress_spec (ckks_sound h hdegree) h.pos h.le h.ready h.coprime hc hl
      haccepts hpos
      (n := l - (CompressScheme.ckksrns params).rescaledTowers deg c)
      (Nat.sub_add_cancel hroom.le) (Nat.sub_pos_of_lt hroom) with
      ⟨r, r', hr, hle, hscaled, hr', hcompressed⟩
    exact ⟨r, r', hr, ⟨hle, hscaled⟩, hcompress r' hr', hcompressed⟩
  rcases hcond with hcomposite | hone | hle
  · exact hsound (Or.inl hcomposite)
  · exact hsound (Or.inr hone)
  · have hwf : WellFormedElements (2 ^ k) (params.moduliQ.take l) c.elements := hc.elements
    rcases exists_encodesAll h.pos h.le (fun q hq => h.ready q (List.mem_of_mem_take hq))
      (h.coprime.sublist (List.take_sublist _ _)) hwf with ⟨xs, hxs⟩
    have hstay : (ckksCompress cache params).reduceDegree c deg = some c :=
      whileFuel_stop _ (decide_eq_false (not_lt.mpr hle))
    have hzero : (CompressScheme.ckksrns params).rescaledTowers deg c = 0 := by
      show _ * (c.noiseScaleDeg - deg) = 0
      rw [Nat.sub_eq_zero_of_le hle, Nat.mul_zero]
    have hrefl : List.Forall₂ (DCRTPoly.DividedBy 1 ((params.moduliQ.take l).drop l).prod)
        xs xs := by
      rw [List.drop_of_length_le (by rw [List.length_take]; omega), List.prod_nil]
      exact forall₂_refl (fun x => DCRTPoly.DividedBy.refl _ x) xs
    rcases (ckksCompress cache params).compress_of_rescaled h.pos h.le h.ready h.coprime hc
      haccepts hpos hc.pos (le_refl l) hstay hxs hxs hrefl with ⟨r', hr', hcompressed⟩
    refine ⟨c, r', hstay, ⟨hle, ?_⟩, hcompress r' hr', ?_⟩
    · rw [hzero, Nat.sub_zero]
      show c.scalingFactor = _
      rw [Nat.sub_self]
      rfl
    · rw [hzero, Nat.sub_zero]
      exact hcompressed

theorem bgv_compresses {params : Bgvrns.LeveledParameters}
    (h : Bgvrns.Setting cache params k psi) (ht : 1 < params.plaintextModulus)
    (htlt : params.plaintextModulus < 2 ^ 62)
    (hc : HasTowers params.moduliQ k .EVALUATION l c)
    (hl : l + c.level = params.moduliQ.length) (hdeg : deg <= towersLeft)
    (hpos : 0 < towersLeft)
    (hroom : (CompressScheme.bgvrns params).rescaledTowers deg c < l) :
    (CompressScheme.bgvrns params).Compresses cache k psi .EVALUATION l towersLeft deg c := by
  have hlevels : (bgvCompress cache params : CompressRNS F).levelsToDrop = 1 := by
    unfold CompressRNS.levelsToDrop
    split <;> rfl
  rcases CompressRNS.compress_spec (bgv_sound (F := F) h ht htlt) h.pos h.le h.ready h.coprime hc
    hl (fun _ => Nat.mod_one towersLeft) hpos
    (n := l - (CompressScheme.bgvrns params).rescaledTowers deg c)
    (by
      rw [hlevels, Nat.one_mul]
      exact Nat.sub_add_cancel hroom.le) (Nat.sub_pos_of_lt hroom) with
    ⟨r, r', hr, hle, hscaled, hr', hcompressed⟩
  refine ⟨r, r', hr, ⟨hle, hscaled⟩, ?_, hcompressed⟩
  show compressContext _ _ _ _ = _
  rw [compressContext, if_neg (not_lt.mpr hdeg)]
  exact hr'

/-- `Compress` leaves the smaller number of towers and the message where the condition holds. -/
theorem compresses_iff {scheme : CompressScheme F} (h : scheme.Setting cache k psi)
    (hc : HasTowers scheme.moduliQ k format l c) (hadmits : scheme.Admits format l c)
    (haccepts : scheme.Accepts towersLeft) (hdeg : deg <= towersLeft) (hpos : 1 <= towersLeft)
    (hlt : towersLeft < 2 ^ 32) (hroom : scheme.rescaledTowers deg c < l) :
    (scheme.Condition format l towersLeft deg c ->
      scheme.Compresses cache k psi format l towersLeft deg c) ∧
    (scheme.Compresses cache k psi format l towersLeft deg c ->
      scheme.Necessary format l towersLeft deg c) := by
  cases scheme with
  | ckksrns params =>
      rcases hadmits with ⟨rfl, hl⟩
      constructor
      · exact ckks_compresses h hc hl haccepts hdeg hpos hroom
      · rintro ⟨rescaled, _, hrescale, _⟩
        by_cases htechnique : params.technique.IsComposite
        · exact Or.inl htechnique
        · rcases Nat.lt_or_ge deg c.noiseScaleDeg with hdegree | hle
          · have hone : ¬ 1 < params.compositeDegree := by
              intro hone
              cases hrescale.symm.trans (ckks_reduceDegree_none htechnique hone hdegree)
            have hdpos : 0 < params.compositeDegree := Ckksrns.Setting.compositeDegree h
            exact Or.inr (Or.inl (by omega))
          · exact Or.inr (Or.inr hle)
  | bgvrns params =>
      rcases hadmits with ⟨rfl, hl⟩
      rcases h with ⟨hsetting, ht, htlt⟩
      constructor
      · intro _
        exact bgv_compresses hsetting ht htlt hc hl hdeg hpos hroom
      · intro _
        trivial
  | bfvrns params t =>
      rcases h with ⟨hk, hk31, hready, hcoprime⟩
      have haccepts' : params.Accepts := haccepts
      have hl : l <= 2 ^ 60 := hc.le.trans (length_le_of_coprime hready hcoprime)
      have hunfold : (CompressScheme.bfvrns params t).compress cache format towersLeft deg c =
          params.compress cache format c towersLeft deg := by
        show compressContext _ _ _ _ = _
        rw [compressContext, if_neg (not_lt.mpr hdeg)]
      constructor
      · intro hcond
        rcases CompressBFVRNS.compress_spec hk hk31 hready hcoprime haccepts' hc hpos hcond t deg
          with ⟨r, hr, hcompressed⟩
        exact ⟨c, r, rfl, rfl, hunfold.trans hr, hcompressed⟩
      · rintro ⟨_, r, _, _, hr, hcompressed⟩
        rw [hunfold] at hr
        have hle : towersLeft <= l := by
          rcases Nat.lt_or_ge l towersLeft with hgt | hle
          · cases hr.symm.trans (CompressBFVRNS.compress_none haccepts' hc hl hgt hlt deg)
          · exact hle
        constructor
        · exact hle
        · rintro rfl
          exact CompressBFVRNS.even_of_coefficient haccepts' hc hl hle hr hcompressed.towers

end Outcomes

/-! ## Small parameters -/

open Ckksrns (smallLeveledSetting smallLeveledCiphertext smallAtLevel)

/-- Products over all moduli, with the technique that `Compress` asks for. -/
def smallBfv : CompressScheme Nat :=
  .bfvrns ⟨Ckksrns.smallLeveled.moduliQ, .HPSPOVERQLEVELED, .STANDARD⟩ 3

theorem smallBfvSetting : smallBfv.Setting Poly.smallCache 1 Poly.smallRoot :=
  ⟨smallLeveledSetting.pos, smallLeveledSetting.le, smallLeveledSetting.ready,
    smallLeveledSetting.coprime⟩

theorem smallBfvAccepts (towersLeft : Nat) : smallBfv.Accepts towersLeft := by
  constructor
  · intro hfalse
    cases hfalse
  · constructor
    · intro hfalse
      cases hfalse
    · intro hfalse
      cases hfalse

theorem smallBfvTowers :
    HasTowers smallBfv.moduliQ 1 .EVALUATION 2 (smallLeveledCiphertext 1 1 16) := by
  constructor
  · exact Nat.two_pos
  · decide
  · exact List.cons_ne_nil _ _
  · exact (smallAtLevel (show 1 < 3 by decide) 1 16).elements

/-- Two towers are compressed to one. -/
theorem compresses_one : smallBfv.Compresses Poly.smallCache 1 Poly.smallRoot .EVALUATION 2 1 1
    (smallLeveledCiphertext 1 1 16) :=
  (compresses_iff smallBfvSetting smallBfvTowers trivial (smallBfvAccepts 1) (le_refl 1)
    (le_refl 1) (by decide) Nat.two_pos).1 (Or.inr ⟨Nat.one_lt_two, rfl⟩)

/-- Where three towers are asked for, two towers are not left as they are. -/
theorem not_compresses_three : ¬ smallBfv.Compresses Poly.smallCache 1 Poly.smallRoot .EVALUATION
    2 3 1 (smallLeveledCiphertext 1 1 16) := by
  rintro ⟨_, r, _, _, hr, _⟩
  have hnone := @CompressBFVRNS.compress_none Nat Poly.smallCache 1 _ _ _ _ _ (smallBfvAccepts 3)
    smallBfvTowers (by decide) (by decide : 2 < 3) (by decide) 1
  cases hnone.symm.trans hr

end Scheme
end OpenFHE
