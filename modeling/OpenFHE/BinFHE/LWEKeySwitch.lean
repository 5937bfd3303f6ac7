import OpenFHE.BinFHE.LWEEncryption

/-!
# LWE key switching

A switching key holds, for every coordinate of the old secret, every value of a
digit and every position of the digit, an encryption under the new secret.
`KeySwitch` splits the mask into digits and subtracts the rows that they select.
-/

namespace OpenFHE
namespace BinFHE

open Core Foundation NativeInteger

/-- Rows and bodies by coordinate, value of the digit and position. -/
structure LWESwitchingKeyImpl where
  m_keyA : List (List (List NativeVectorT))
  m_keyB : List (List (List Nat))
deriving DecidableEq, Repr

/-- The parameters that the operations read; `digitCount` is computed from `qKS` and `baseKS`. -/
structure LWECryptoParams where
  n : Nat
  N : Nat
  qKS : Nat
  baseKS : Nat
  digitCount : Nat
deriving DecidableEq, Repr

namespace LWEEncryptionScheme

/-- `digitsKS`, from the running value of the loop. -/
def powersKS (baseKS : Nat) : Nat -> Nat -> List Nat
  | 0, _ => []
  | count + 1, value => value :: powersKS baseKS count (mulFast value baseKS)

/-- The innermost body of `KeySwitchGen`: `a` is uniform and `noise` Gaussian. -/
def switchingEntry (params : LWECryptoParams) (mu : Nat) (sv svN : NativeVectorT)
    (digitsKS : List Nat) (a : List Nat) (noise i j k : Nat) :
    Except Fault (NativeVectorT × Nat) := do
  let secret <- Fault.access (svN.data)[i]?
  let digit <- Fault.access (digitsKS)[k]?
  let b := modAdd noise (modMul secret (mulFast digit j) params.qKS) params.qKS
  let b <- accumulate params.qKS mu a sv.data params.n b
  return ({ modulus := params.qKS, data := a }, b % params.qKS)

def keySwitchGen (params : LWECryptoParams) (sk skN : NativeVectorT)
    (uniform : Nat -> Nat -> Nat -> List Nat) (noise : Nat -> Nat -> Nat -> Nat) :
    Except Fault LWESwitchingKeyImpl := do
  let digitsKS := powersKS params.baseKS params.digitCount 1
  let sv <- sk.switchModulus params.qKS
  let svN <- skN.switchModulus params.qKS
  let mu <- reciprocal params.qKS
  let table <- (List.range params.N).mapM fun i =>
    (List.range params.baseKS).mapM fun j =>
      (List.range params.digitCount).mapM fun k =>
        switchingEntry params mu sv svN digitsKS (uniform i j k) (noise i j k) i j k
  return {
    m_keyA := table.map (List.map (List.map Prod.fst))
    m_keyB := table.map (List.map (List.map Prod.snd)) }

/-- The loop `a[k].ModSubFastEq(refAj[k], Q)` over the `n` entries of `a`. -/
def subtractRow (Q : Nat) (a row : List Nat) : Except Fault (List Nat) :=
  if row.length < a.length then throw .undefined
  else return List.zipWith (fun x y => modSubFast x y Q) a row

/-- The vector, the body and the rest of the coordinate that is split into digits. -/
structure SwitchState where
  a : List Nat
  b : Nat
  atmp : Nat
deriving DecidableEq, Repr

def switchDigit (params : LWECryptoParams) (refA : List (List NativeVectorT))
    (refB : List (List Nat)) (s : SwitchState) (j : Nat) : Except Fault SwitchState := do
  let a0 := s.atmp % params.baseKS
  let rowB <- Fault.access (refB)[a0]?
  let entryB <- Fault.access (rowB)[j]?
  let rowA <- Fault.access (refA)[a0]?
  let entryA <- Fault.access (rowA)[j]?
  let a <- subtractRow params.qKS s.a entryA.data
  return { a := a, b := modSubFast s.b entryB params.qKS, atmp := s.atmp / params.baseKS }

def switchCoordinate (params : LWECryptoParams) (K : LWESwitchingKeyImpl)
    (ctQN : LWECiphertextImpl) (s : List Nat × Nat) (i : Nat) :
    Except Fault (List Nat × Nat) := do
  let refA <- Fault.access (K.m_keyA)[i]?
  let refB <- Fault.access (K.m_keyB)[i]?
  let atmp <- Fault.access (ctQN.m_a.data)[i]?
  let s <- (List.range params.digitCount).foldlM (switchDigit params refA refB)
    { a := s.1, b := s.2, atmp := atmp }
  return (s.a, s.b)

def keySwitch (params : LWECryptoParams) (K : LWESwitchingKeyImpl) (ctQN : LWECiphertextImpl) :
    Except Fault LWECiphertextImpl := do
  let s <- (List.range params.N).foldlM (switchCoordinate params K ctQN)
    ((NativeVectorT.zeros params.n params.qKS).data, ctQN.m_b)
  return { m_a := { modulus := params.qKS, data := s.1 }, m_b := s.2 }

/-!
## The powers of the base
-/

theorem powersKS_getElem? (baseKS : Nat) {count : Nat} :
    forall value k, k < count ->
      (powersKS baseKS count (word value))[k]? = some (word (value * baseKS ^ k)) := by
  induction count with
  | zero =>
      intro value k hk
      exact absurd hk (Nat.not_lt_zero k)
  | succ count ih =>
      intro value k hk
      cases k with
      | zero =>
          simp [powersKS]
      | succ k =>
          have hnext : mulFast (word value) baseKS = word (value * baseKS) := by
            simp [mulFast, word, Nat.mul_mod, Nat.mul_comm]
          rw [powersKS, List.getElem?_cons_succ, hnext, ih _ k (by omega), pow_succ', mul_assoc]

theorem selected_power {B Q a k : Nat} (ha : a < Q) (hQ : Q < 2 ^ maxBits) :
    mulFast (word (1 * B ^ k)) (a / B ^ k % B) = a / B ^ k % B * B ^ k := by
  have hle : a / B ^ k % B * B ^ k <= a :=
    le_trans (Nat.mul_le_mul_right _ (Nat.mod_le _ _)) (Nat.div_mul_le_self a _)
  have hmod : mulFast (word (1 * B ^ k)) (a / B ^ k % B) = word (a / B ^ k % B * B ^ k) := by
    simp [mulFast, word, Nat.mul_mod]
  rw [hmod, word_eq (by omega)]

theorem sum_selected (B a n : Nat) :
    (∑ k ∈ Finset.range n, a / B ^ k % B * B ^ k) = a % B ^ n := by
  induction n with
  | zero =>
      simp [Nat.mod_one]
  | succ n ih =>
      rw [Finset.sum_range_succ, ih, Nat.mod_pow_succ, Nat.mul_comm (B ^ n)]

/-!
## The generated key
-/

/-- A body minus the inner product of its mask with the secret. -/
def phase (q n : Nat) (sk : NativeVectorT) (a : List Nat) (b : Nat) : ZMod q :=
  b - maskProduct q n a sk

/-- Row `j`, `k` of one coordinate encrypts `target j k`. -/
def CoordinateKey (params : LWECryptoParams) (sk : NativeVectorT)
    (target : Nat -> Nat -> ZMod params.qKS) (refA : List (List NativeVectorT))
    (refB : List (List Nat)) : Prop :=
  forall j, j < params.baseKS -> forall k, k < params.digitCount ->
    exists rowA rowB a b, refA[j]? = some rowA ∧ refB[j]? = some rowB ∧
      rowA[k]? = some a ∧ rowB[k]? = some b ∧
      NativeVectorT.Valid params.n params.qKS a ∧ b < params.qKS ∧
      phase params.qKS params.n sk a.data b = target j k

/-- What row `j`, `k` of coordinate `i` encrypts: its error and a multiple of the old secret. -/
def keyTarget (params : LWECryptoParams) (skN : NativeVectorT)
    (noise : Nat -> Nat -> Nat -> Nat) (i j k : Nat) : ZMod params.qKS :=
  noise i j k + secretResidue params.qKS skN i *
    (mulFast (word (1 * params.baseKS ^ k)) j : Nat)

/-- The parameters for which the sums of `KeySwitchGen` keep their residue. -/
structure Admissible (params : LWECryptoParams) : Prop where
  pos : 0 < params.qKS
  lt : params.qKS < 2 ^ 60
  headroom : (params.n + 1) * (params.qKS - 1) < 2 ^ maxBits ∨ params.qKS ∣ 2 ^ maxBits

theorem Admissible.headroom_of_lt {params : LWECryptoParams} (hparams : Admissible params)
    {start : Nat} (hstart : start < params.qKS) : Headroom params.qKS params.n start := by
  refine hparams.headroom.imp (fun hroom => ?_) id
  have hsplit : (params.n + 1) * (params.qKS - 1) =
      params.n * (params.qKS - 1) + (params.qKS - 1) := Nat.succ_mul _ _
  omega

section Generation

variable {params : LWECryptoParams} {sk skN : NativeVectorT}
  {uniform : Nat -> Nat -> Nat -> List Nat} (noise : Nat -> Nat -> Nat -> Nat)

theorem switchingEntry_spec (hpos : 0 < params.qKS) (hlt : params.qKS < 2 ^ 60) {mu : Nat}
    (hmu : computeMu params.qKS = some mu) {sv svN : NativeVectorT}
    (hsv : NativeVectorT.Stands params.n params.qKS (secretResidue params.qKS sk) sv)
    (hsvN : NativeVectorT.Stands params.N params.qKS (secretResidue params.qKS skN) svN)
    {a : List Nat} (ha : Residues params.n params.qKS a) {i j k : Nat} (hi : i < params.N)
    (hk : k < params.digitCount)
    (hroom : forall start, Represents params.qKS (keyTarget params skN noise i j k) start ->
      Headroom params.qKS params.n start) :
    exists b, switchingEntry params mu sv svN (powersKS params.baseKS params.digitCount 1) a
        (noise i j k) i j k = .ok ({ modulus := params.qKS, data := a }, b) ∧
      b < params.qKS ∧ phase params.qKS params.n sk a b = keyTarget params skN noise i j k := by
  have hword : 2 ^ 60 < 2 ^ maxBits := by decide
  rcases hsvN.holds.residues.exists_entry hi with ⟨secret, hsecret, hsecretLt⟩
  have hsecretRep := hsvN.holds.get i secret hsecret
  have hdigit : (powersKS params.baseKS params.digitCount 1)[k]? =
      some (word (1 * params.baseKS ^ k)) := powersKS_getElem? params.baseKS 1 k hk
  have hstart : Represents params.qKS (keyTarget params skN noise i j k)
      (modAdd (noise i j k) (modMul secret (mulFast (word (1 * params.baseKS ^ k)) j) params.qKS)
        params.qKS) := by
    rw [modAdd, reduce_eq_mod, reduce_eq_mod]
    have hadd := represents_addFast (by omega : params.qKS < 2 ^ 63)
      (Nat.mod_lt (noise i j k) hpos)
      (Nat.mod_lt (modMul secret (mulFast (word (1 * params.baseKS ^ k)) j) params.qKS) hpos)
    rw [ZMod.natCast_mod, ZMod.natCast_mod, modMul_eq hpos (by omega), ZMod.natCast_mod,
      Nat.cast_mul, hsecretRep.2] at hadd
    rwa [modMul_eq hpos (by omega)]
  rcases accumulate_spec hpos hlt hmu ha hsv.holds.residues
    (lt_trans hstart.1 (lt_trans hlt hword)) with ⟨b, hb, _, hcast⟩
  refine ⟨b % params.qKS, ?_, Nat.mod_lt _ hpos, ?_⟩
  · rw [switchingEntry, hsecret, hdigit]
    simp only [Fault.access_some, Fault.ok_bind, hb]
    rfl
  · rw [phase, ZMod.natCast_mod, hcast (hroom _ hstart), maskProduct_eq hsv, hstart.2,
      add_sub_cancel_right]

theorem keySwitchGen_rows {sv svN : NativeVectorT} {mu : Nat}
    (hsv : sk.switchModulus params.qKS = .ok sv) (hsvN : skN.switchModulus params.qKS = .ok svN)
    (hmu : reciprocal params.qKS = .ok mu)
    (huniform : forall i j k, Residues params.n params.qKS (uniform i j k))
    {target : Nat -> Nat -> Nat -> ZMod params.qKS}
    (hentry : forall i, i < params.N -> forall j, j < params.baseKS ->
      forall k, k < params.digitCount -> exists b,
        switchingEntry params mu sv svN (powersKS params.baseKS params.digitCount 1)
            (uniform i j k) (noise i j k) i j k =
          .ok ({ modulus := params.qKS, data := uniform i j k }, b) ∧
        b < params.qKS ∧ phase params.qKS params.n sk (uniform i j k) b = target i j k) :
    exists K, keySwitchGen params sk skN uniform noise = .ok K ∧
      forall i, i < params.N -> exists refA refB, K.m_keyA[i]? = some refA ∧
        K.m_keyB[i]? = some refB ∧ CoordinateKey params sk (target i) refA refB := by
  have htable := mapM_range_ok (n := params.N)
    (f := fun i => (List.range params.baseKS).mapM fun j =>
      (List.range params.digitCount).mapM fun k =>
        switchingEntry params mu sv svN (powersKS params.baseKS params.digitCount 1)
          (uniform i j k) (noise i j k) i j k)
    (fun i rows => CoordinateKey params sk (target i)
      (rows.map (List.map Prod.fst)) (rows.map (List.map Prod.snd))) ?_
  · rcases htable with ⟨table, htable, _, hrows⟩
    refine ⟨{
      m_keyA := table.map (List.map (List.map Prod.fst))
      m_keyB := table.map (List.map (List.map Prod.snd)) }, ?_, ?_⟩
    · unfold keySwitchGen
      simp only [hsv, hsvN, hmu, Fault.ok_bind, htable]
      rfl
    · intro i hi
      rcases hrows i hi with ⟨rows, hget, hkey⟩
      exact ⟨_, _, by rw [List.getElem?_map, hget]; rfl, by rw [List.getElem?_map, hget]; rfl, hkey⟩
  · intro i hi
    have hvalues := mapM_range_ok (n := params.baseKS)
      (f := fun j => (List.range params.digitCount).mapM fun k =>
        switchingEntry params mu sv svN (powersKS params.baseKS params.digitCount 1)
          (uniform i j k) (noise i j k) i j k)
      (fun j row => forall k, k < params.digitCount -> exists b,
        row[k]? = some ({ modulus := params.qKS, data := uniform i j k }, b) ∧
          b < params.qKS ∧ phase params.qKS params.n sk (uniform i j k) b = target i j k) ?_
    · rcases hvalues with ⟨rows, hrows, _, hentries⟩
      refine ⟨rows, hrows, ?_⟩
      intro j hj k hk
      rcases hentries j hj with ⟨row, hrow, hrowEntries⟩
      rcases hrowEntries k hk with ⟨b, hb, hbLt, hphase⟩
      refine ⟨row.map Prod.fst, row.map Prod.snd,
        { modulus := params.qKS, data := uniform i j k }, b, ?_, ?_, ?_, ?_,
        ⟨rfl, huniform i j k⟩, hbLt, hphase⟩
      · rw [List.getElem?_map, hrow]
        rfl
      · rw [List.getElem?_map, hrow]
        rfl
      · rw [List.getElem?_map, hb]
        rfl
      · rw [List.getElem?_map, hb]
        rfl
    · intro j hj
      rcases mapM_range_ok (n := params.digitCount) (fun k entry => exists b,
          entry = (({ modulus := params.qKS, data := uniform i j k } : NativeVectorT), b) ∧
            b < params.qKS ∧ phase params.qKS params.n sk (uniform i j k) b = target i j k)
          (fun k hk => by
            rcases hentry i hi j hj k hk with ⟨b, hb, hbLt, hphase⟩
            exact ⟨_, hb, b, rfl, hbLt, hphase⟩) with ⟨row, hrow, _, hentries⟩
      refine ⟨row, hrow, ?_⟩
      intro k hk
      rcases hentries k hk with ⟨entry, hentry, b, rfl, hbLt, hphase⟩
      exact ⟨b, hentry, hbLt, hphase⟩

theorem keySwitchGen_spec (hparams : Admissible params) {old oldN : Nat}
    (hsk : NativeVectorT.Valid params.n old sk) (hold : old < 2 ^ maxBits)
    (hskN : NativeVectorT.Valid params.N oldN skN) (holdN : oldN < 2 ^ maxBits)
    (huniform : forall i j k, Residues params.n params.qKS (uniform i j k)) :
    exists K, keySwitchGen params sk skN uniform noise = .ok K ∧
      forall i, i < params.N -> exists refA refB, K.m_keyA[i]? = some refA ∧
        K.m_keyB[i]? = some refB ∧
        CoordinateKey params sk (keyTarget params skN noise i) refA refB := by
  rcases secret_ok hsk hold hparams.pos hparams.lt with ⟨sv, hsv, hsvStands⟩
  rcases secret_ok hskN holdN hparams.pos hparams.lt with ⟨svN, hsvN, hsvNStands⟩
  rcases reciprocal_ok hparams.pos with ⟨mu, hmu, hrec⟩
  refine keySwitchGen_rows noise hsv hsvN hrec huniform ?_
  intro i hi j _ k hk
  exact switchingEntry_spec noise hparams.pos hparams.lt hmu hsvStands hsvNStands (huniform i j k) hi hk
    fun _ hstart => hparams.headroom_of_lt hstart.1

end Generation

/-!
## The switch
-/

theorem subtractRow_spec {n Q : Nat} (h60 : Q < 2 ^ 60) {a row : List Nat}
    (ha : Residues n Q a) (hrow : Residues n Q row) (sk : NativeVectorT) :
    exists r, subtractRow Q a row = .ok r ∧ Residues n Q r ∧
      maskProduct Q n r sk = maskProduct Q n a sk - maskProduct Q n row sk := by
  have hholds : Holds Q n (fun i => coefficient Q a i - coefficient Q row i)
      (List.zipWith (fun x y => modSubFast x y Q) a row) :=
    NativeVector.holds_zipWith (fun i x y hx hy => by
      rw [← hx.2, ← hy.2]
      exact NativeVector.represents_sub_fast h60 hx.1 hy.1) ha.holds hrow.holds
  refine ⟨_, ?_, hholds.residues, ?_⟩
  · rw [subtractRow, if_neg (by rw [ha.1, hrow.1]; omega)]
    rfl
  · unfold maskProduct
    rw [← Finset.sum_sub_distrib]
    exact Finset.sum_congr rfl fun i hi => by
      rw [hholds.coefficient_eq (Finset.mem_range.mp hi)]
      ring

section Switch

variable {params : LWECryptoParams} (hpos : 0 < params.qKS) (hlt : params.qKS < 2 ^ 60)
  (hbase : 0 < params.baseKS) {sk : NativeVectorT}

include hlt hbase

theorem switchDigit_spec {target : Nat -> Nat -> ZMod params.qKS}
    {refA : List (List NativeVectorT)} {refB : List (List Nat)}
    (hkey : CoordinateKey params sk target refA refB) {s : SwitchState}
    (ha : Residues params.n params.qKS s.a) (hb : s.b < params.qKS) {k : Nat}
    (hk : k < params.digitCount) :
    exists s', switchDigit params refA refB s k = .ok s' ∧
      Residues params.n params.qKS s'.a ∧ s'.b < params.qKS ∧
      s'.atmp = s.atmp / params.baseKS ∧
      phase params.qKS params.n sk s'.a s'.b =
        phase params.qKS params.n sk s.a s.b - target (s.atmp % params.baseKS) k := by
  rcases hkey _ (Nat.mod_lt s.atmp hbase) k hk with
    ⟨rowA, rowB, a, b, hrowA, hrowB, hentryA, hentryB, hvalid, hbLt, hphase⟩
  rcases subtractRow_spec hlt ha hvalid.residues sk with ⟨r, hr, hrResidues, hrProduct⟩
  have hsub := NativeVector.represents_sub_fast hlt hb hbLt
  refine ⟨{ a := r, b := modSubFast s.b b params.qKS, atmp := s.atmp / params.baseKS }, ?_,
    hrResidues, hsub.1, rfl, ?_⟩
  · unfold switchDigit
    simp only [hrowA, hrowB, hentryA, hentryB, Fault.access_some, Fault.ok_bind, hr]
    rfl
  · unfold phase at hphase ⊢
    rw [hsub.2, hrProduct, ← hphase]
    ring

theorem switchCoordinate_spec {K : LWESwitchingKeyImpl} {ctQN : LWECiphertextImpl} {i x : Nat}
    {target : Nat -> Nat -> ZMod params.qKS} {refA : List (List NativeVectorT)}
    {refB : List (List Nat)} (hA : K.m_keyA[i]? = some refA) (hB : K.m_keyB[i]? = some refB)
    (hkey : CoordinateKey params sk target refA refB) (hx : ctQN.m_a.data[i]? = some x)
    {s : List Nat × Nat} (ha : Residues params.n params.qKS s.1) (hb : s.2 < params.qKS) :
    exists s', switchCoordinate params K ctQN s i = .ok s' ∧
      Residues params.n params.qKS s'.1 ∧ s'.2 < params.qKS ∧
      phase params.qKS params.n sk s'.1 s'.2 = phase params.qKS params.n sk s.1 s.2 -
        ∑ k ∈ Finset.range params.digitCount, target (x / params.baseKS ^ k % params.baseKS) k := by
  rcases foldlM_range_ok (n := params.digitCount) (f := switchDigit params refA refB)
    (s := { a := s.1, b := s.2, atmp := x })
    (fun k r => Residues params.n params.qKS r.a ∧ r.b < params.qKS ∧
      r.atmp = x / params.baseKS ^ k ∧
      phase params.qKS params.n sk r.a r.b = phase params.qKS params.n sk s.1 s.2 -
        ∑ j ∈ Finset.range k, target (x / params.baseKS ^ j % params.baseKS) j)
    ⟨ha, hb, by simp, by simp⟩ (by
      rintro k hk r ⟨hra, hrb, hatmp, hphase⟩
      rcases switchDigit_spec hlt hbase hkey hra hrb hk with
        ⟨r', hr', ha', hb', hatmp', hphase'⟩
      refine ⟨r', hr', ha', hb', ?_, ?_⟩
      · rw [hatmp', hatmp, Nat.div_div_eq_div_mul, pow_succ]
      · rw [hphase', hphase, hatmp, Finset.sum_range_succ]
        ring) with ⟨r, hr, hra, hrb, _, hphase⟩
  refine ⟨(r.a, r.b), ?_, hra, hrb, hphase⟩
  unfold switchCoordinate
  simp only [hA, hB, hx, Fault.access_some, Fault.ok_bind, hr]
  rfl

include hpos

theorem keySwitch_spec {K : LWESwitchingKeyImpl} {ctQN : LWECiphertextImpl}
    {target : Nat -> Nat -> Nat -> ZMod params.qKS}
    (hkey : forall i, i < params.N -> exists refA refB, K.m_keyA[i]? = some refA ∧
      K.m_keyB[i]? = some refB ∧ CoordinateKey params sk (target i) refA refB)
    (hct : NativeVectorT.Valid params.N params.qKS ctQN.m_a) (hb : ctQN.m_b < params.qKS) :
    exists ct, keySwitch params K ctQN = .ok ct ∧
      NativeVectorT.Valid params.n params.qKS ct.m_a ∧ ct.m_b < params.qKS ∧
      phase params.qKS params.n sk ct.m_a.data ct.m_b = ctQN.m_b -
        ∑ i ∈ Finset.range params.N, ∑ k ∈ Finset.range params.digitCount,
          target i (ctQN.m_a.data.getD i 0 / params.baseKS ^ k % params.baseKS) k := by
  have hzeros := NativeVectorT.zeros_valid (n := params.n) hpos
  have hstart : maskProduct params.qKS params.n
      (NativeVectorT.zeros params.n params.qKS).data sk = 0 := by
    refine Finset.sum_eq_zero fun i _ => ?_
    have hentry : (NativeVectorT.zeros params.n params.qKS).data.getD i 0 = 0 := by
      simp only [NativeVectorT.zeros, List.getD_eq_getElem?_getD, List.getElem?_replicate]
      split <;> rfl
    rw [coefficient, hentry, Nat.cast_zero, zero_mul]
  rcases foldlM_range_ok (n := params.N) (f := switchCoordinate params K ctQN)
    (s := ((NativeVectorT.zeros params.n params.qKS).data, ctQN.m_b))
    (fun i r => Residues params.n params.qKS r.1 ∧ r.2 < params.qKS ∧
      phase params.qKS params.n sk r.1 r.2 = ctQN.m_b -
        ∑ i ∈ Finset.range i, ∑ k ∈ Finset.range params.digitCount,
          target i (ctQN.m_a.data.getD i 0 / params.baseKS ^ k % params.baseKS) k)
    ⟨hzeros.residues, hb, by simp [phase, hstart]⟩ (by
      rintro i hi r ⟨hra, hrb, hphase⟩
      rcases hkey i hi with ⟨refA, refB, hA, hB, hcoordinate⟩
      rcases hct.residues.exists_entry hi with ⟨x, hx, _⟩
      rcases switchCoordinate_spec hlt hbase hA hB hcoordinate hx hra hrb with
        ⟨r', hr', hra', hrb', hphase'⟩
      refine ⟨r', hr', hra', hrb', ?_⟩
      have hentry : ctQN.m_a.data.getD i 0 = x := by
        rw [List.getD_eq_getElem?_getD, hx]
        rfl
      rw [hphase', hphase, Finset.sum_range_succ, hentry]
      ring) with ⟨r, hr, hra, hrb, hphase⟩
  refine ⟨{ m_a := { modulus := params.qKS, data := r.1 }, m_b := r.2 }, ?_, ⟨rfl, hra⟩, hrb,
    hphase⟩
  rw [keySwitch, hr]
  rfl

end Switch

theorem sum_keyTarget {params : LWECryptoParams} (hlt : params.qKS < 2 ^ maxBits)
    (skN : NativeVectorT) (noise : Nat -> Nat -> Nat -> Nat) (i : Nat) {x : Nat}
    (hx : x < params.qKS) (hcover : params.qKS <= params.baseKS ^ params.digitCount) :
    (∑ k ∈ Finset.range params.digitCount,
      keyTarget params skN noise i (x / params.baseKS ^ k % params.baseKS) k) =
      (∑ k ∈ Finset.range params.digitCount,
        (noise i (x / params.baseKS ^ k % params.baseKS) k : ZMod params.qKS)) +
        secretResidue params.qKS skN i * x := by
  have hsum := sum_selected params.baseKS x params.digitCount
  rw [Nat.mod_eq_of_lt (lt_of_lt_of_le hx hcover)] at hsum
  have hcast := congrArg (Nat.cast : Nat -> ZMod params.qKS) hsum
  rw [Nat.cast_sum] at hcast
  unfold keyTarget
  rw [Finset.sum_add_distrib, ← Finset.mul_sum, ← hcast]
  congr 2
  exact Finset.sum_congr rfl fun k _ => by rw [selected_power hx hlt]

/-!
## Correctness
-/

/-- What a key switch of `ctQN` does: no index is out of range, and only errors are added. -/
def SwitchesCorrectly (params : LWECryptoParams) (sk skN : NativeVectorT)
    (uniform : Nat -> Nat -> Nat -> List Nat) (noise : Nat -> Nat -> Nat -> Nat)
    (ctQN : LWECiphertextImpl) : Prop :=
  exists K ct, keySwitchGen params sk skN uniform noise = .ok K ∧
    keySwitch params K ctQN = .ok ct ∧
    NativeVectorT.Valid params.n params.qKS ct.m_a ∧ ct.m_b < params.qKS ∧
    phase params.qKS params.n sk ct.m_a.data ct.m_b =
      phase params.qKS params.N skN ctQN.m_a.data ctQN.m_b -
        ∑ i ∈ Finset.range params.N, ∑ k ∈ Finset.range params.digitCount,
          (noise i (ctQN.m_a.data.getD i 0 / params.baseKS ^ k % params.baseKS) k :
            ZMod params.qKS) ∧
    forall x, x ∈ ctQN.m_a.data -> x / params.baseKS ^ params.digitCount = 0

theorem keySwitch_correct {params : LWECryptoParams} (hparams : Admissible params)
    (hbase : 2 <= params.baseKS) (hcover : params.qKS <= params.baseKS ^ params.digitCount)
    {old oldN : Nat} {sk skN : NativeVectorT} (hsk : NativeVectorT.Valid params.n old sk)
    (hold : old < 2 ^ maxBits) (hskN : NativeVectorT.Valid params.N oldN skN)
    (holdN : oldN < 2 ^ maxBits) {uniform : Nat -> Nat -> Nat -> List Nat}
    (huniform : forall i j k, Residues params.n params.qKS (uniform i j k))
    (noise : Nat -> Nat -> Nat -> Nat) {ctQN : LWECiphertextImpl}
    (hct : NativeVectorT.Valid params.N params.qKS ctQN.m_a) (hb : ctQN.m_b < params.qKS) :
    SwitchesCorrectly params sk skN uniform noise ctQN := by
  rcases keySwitchGen_spec noise hparams hsk hold hskN holdN huniform with ⟨K, hK, hkey⟩
  rcases keySwitch_spec hparams.pos hparams.lt (by omega) hkey hct hb with ⟨ct, hct', hvalid, hbody, hphase⟩
  refine ⟨K, ct, hK, hct', hvalid, hbody, ?_, ?_⟩
  · rw [hphase, phase, sub_sub, maskProduct, ← Finset.sum_add_distrib]
    congr 1
    refine Finset.sum_congr rfl fun i hi => ?_
    rcases hct.residues.exists_entry (Finset.mem_range.mp hi) with ⟨x, hx, hxlt⟩
    have hentry : ctQN.m_a.data.getD i 0 = x := by
      rw [List.getD_eq_getElem?_getD, hx]
      rfl
    rw [hentry, sum_keyTarget (lt_trans hparams.lt (by decide)) skN noise i hxlt hcover,
      coefficient_of_getElem? hx]
    ring
  · intro x hx
    exact Nat.div_eq_of_lt (lt_of_lt_of_le (hct.residues.2 x hx) hcover)

theorem keySwitch_correct_seven :
    SwitchesCorrectly { n := 1, N := 1, qKS := 7, baseKS := 3, digitCount := 2 }
      (NativeVectorT.zeros 1 7) (NativeVectorT.zeros 1 7) (fun _ _ _ => [5]) (fun _ _ _ => 6)
      { m_a := { modulus := 7, data := [4] }, m_b := 3 } :=
  keySwitch_correct ⟨by decide, by decide, by decide⟩ (by decide) (by decide)
    (NativeVectorT.zeros_valid (by decide)) (by decide)
    (NativeVectorT.zeros_valid (by decide)) (by decide) (fun _ _ _ => ⟨rfl, by decide⟩) _
    ⟨rfl, rfl, by decide⟩ (by decide)

/-!
## A sum that does not fit

Sixteen products and the error fill the word, although `16 * qKS` fits in it.
-/

def wideParams : LWECryptoParams where
  n := 16
  N := 1
  qKS := 2 ^ 60 - 1
  baseKS := 2 ^ 30
  digitCount := 2

def wideSecret : NativeVectorT where
  modulus := 2 ^ 60 - 1
  data := List.replicate 16 1

/-- The row of digit zero at position zero has the largest entries. -/
def wideUniform (_ j k : Nat) : List Nat :=
  List.replicate 16 (if j = 0 ∧ k = 0 then 2 ^ 60 - 2 else 0)

def wideNoise (_ j k : Nat) : Nat := if j = 0 ∧ k = 0 then 2 ^ 60 - 2 else 0

theorem wideUniform_residues (i j k : Nat) :
    Residues wideParams.n wideParams.qKS (wideUniform i j k) := by
  refine ⟨List.length_replicate, ?_⟩
  intro x hx
  rw [List.eq_of_mem_replicate hx]
  split <;> decide

theorem wideEntry :
    switchingEntry wideParams (2 ^ 123 / (2 ^ 60 - 1)) wideSecret
        (NativeVectorT.zeros 1 (2 ^ 60 - 1)) (powersKS (2 ^ 30) 2 1) (wideUniform 0 0 0)
        (wideNoise 0 0 0) 0 0 0 =
      .ok ({ modulus := 2 ^ 60 - 1, data := wideUniform 0 0 0 }, 2 ^ 60 - 34) := by
  decide +kernel

theorem wideSecret_valid : NativeVectorT.Valid wideParams.n wideParams.qKS wideSecret :=
  ⟨rfl, List.length_replicate, by decide⟩

theorem wideOld_valid :
    NativeVectorT.Valid wideParams.N wideParams.qKS (NativeVectorT.zeros 1 (2 ^ 60 - 1)) :=
  NativeVectorT.zeros_valid (by decide)

theorem wide_phase :
    phase wideParams.qKS wideParams.n wideSecret (wideUniform 0 0 0) (2 ^ 60 - 34) =
      -((17 : Nat) : ZMod wideParams.qKS) := by
  have hproduct : maskProduct wideParams.qKS wideParams.n (wideUniform 0 0 0) wideSecret =
      ((16 * (2 ^ 60 - 2) : Nat) : ZMod wideParams.qKS) := by
    unfold maskProduct
    rw [Finset.sum_congr rfl (g := fun _ => ((2 ^ 60 - 2 : Nat) : ZMod wideParams.qKS))]
    · rw [Finset.sum_const, Finset.card_range, nsmul_eq_mul, ← Nat.cast_mul]
      rfl
    · intro i hi
      have hi16 : i < 16 := Finset.mem_range.mp hi
      have hmask : (wideUniform 0 0 0)[i]? = some (2 ^ 60 - 2) := by
        rw [wideUniform, List.getElem?_replicate, if_pos hi16]
        rfl
      have hsecret : secretResidue wideParams.qKS wideSecret i = 1 := by
        have hentry : wideSecret.data.getD i 0 = 1 := by
          rw [wideSecret, List.getD_eq_getElem?_getD, List.getElem?_replicate, if_pos hi16]
          rfl
        rw [secretResidue, hentry]
        have hcentered : NativeVector.centered wideSecret.modulus 1 = 1 := by decide
        rw [hcentered, Int.cast_one]
      rw [coefficient_of_getElem? hmask, hsecret, mul_one]
  rw [phase, hproduct, sub_eq_iff_eq_add, eq_neg_add_iff_add_eq, ← Nat.cast_add]
  exact (ZMod.natCast_eq_natCast_iff' _ _ _).mpr (by decide)

theorem wide_noise (i j k : Nat) :
    keyTarget wideParams (NativeVectorT.zeros 1 (2 ^ 60 - 1)) wideNoise i j k =
      (wideNoise i j k : ZMod wideParams.qKS) := by
  have hzero : secretResidue wideParams.qKS (NativeVectorT.zeros 1 (2 ^ 60 - 1)) i = 0 := by
    have hentry : (NativeVectorT.zeros 1 (2 ^ 60 - 1)).data.getD i 0 = 0 := by
      simp only [NativeVectorT.zeros, List.getD_eq_getElem?_getD, List.getElem?_replicate]
      split <;> rfl
    rw [secretResidue, hentry]
    have hcentered : NativeVector.centered (NativeVectorT.zeros 1 (2 ^ 60 - 1)).modulus 0 = 0 := by
      decide
    rw [hcentered, Int.cast_zero]
  rw [keyTarget, hzero, zero_mul, add_zero]

def wideCiphertext : LWECiphertextImpl where
  m_a := NativeVectorT.zeros 1 (2 ^ 60 - 1)
  m_b := 0

def wideTarget (_ j k : Nat) : ZMod wideParams.qKS :=
  if j = 0 ∧ k = 0 then -((17 : Nat) : ZMod wideParams.qKS) else 0

theorem wideKey :
    exists K, keySwitchGen wideParams wideSecret (NativeVectorT.zeros 1 (2 ^ 60 - 1)) wideUniform
        wideNoise = .ok K ∧
      forall i, i < wideParams.N -> exists refA refB, K.m_keyA[i]? = some refA ∧
        K.m_keyB[i]? = some refB ∧
        CoordinateKey wideParams wideSecret (wideTarget i) refA refB := by
  have hmu : computeMu wideParams.qKS = some (2 ^ 123 / (2 ^ 60 - 1)) := by decide
  have hrec : reciprocal wideParams.qKS = .ok (2 ^ 123 / (2 ^ 60 - 1)) := by
    rw [reciprocal, hmu]
  have hsv := NativeVectorT.switchModulus_self wideSecret_valid (by decide) (by decide)
  have hsvN := NativeVectorT.switchModulus_self wideOld_valid (by decide) (by decide)
  rcases secret_ok wideSecret_valid (by decide) (by decide : 0 < wideParams.qKS) (by decide)
    with ⟨sv, hsv', hsvStands⟩
  cases Except.ok.inj (hsv.symm.trans hsv')
  rcases secret_ok wideOld_valid (by decide) (by decide : 0 < wideParams.qKS) (by decide)
    with ⟨svN, hsvN', hsvNStands⟩
  cases Except.ok.inj (hsvN.symm.trans hsvN')
  refine keySwitchGen_rows wideNoise hsv hsvN hrec wideUniform_residues ?_
  intro i hi j _ k hk
  have hi0 : i = 0 := Nat.lt_one_iff.mp hi
  subst hi0
  by_cases hjk : j = 0 ∧ k = 0
  · rcases hjk with ⟨rfl, rfl⟩
    exact ⟨2 ^ 60 - 34, wideEntry, by decide, wide_phase⟩
  · have htarget : keyTarget wideParams (NativeVectorT.zeros 1 (2 ^ 60 - 1)) wideNoise 0 j k = 0 := by
      rw [wide_noise, wideNoise, if_neg hjk, Nat.cast_zero]
    have hroom : forall start, Represents wideParams.qKS
        (keyTarget wideParams (NativeVectorT.zeros 1 (2 ^ 60 - 1)) wideNoise 0 j k) start ->
          Headroom wideParams.qKS wideParams.n start := by
      intro start hstart
      rw [htarget] at hstart
      rw [hstart.eq ⟨by decide, Nat.cast_zero⟩]
      exact Or.inl (by decide)
    rcases switchingEntry_spec wideNoise (by decide) (by decide) hmu hsvStands hsvNStands
      (wideUniform_residues 0 j k) hi hk hroom with ⟨b, hb, hlt, hphase⟩
    refine ⟨b, hb, hlt, ?_⟩
    rw [hphase, htarget, wideTarget, if_neg hjk]

theorem wide_digits (k : Nat) :
    wideCiphertext.m_a.data.getD 0 0 / wideParams.baseKS ^ k % wideParams.baseKS = 0 := by
  rw [show wideCiphertext.m_a.data.getD 0 0 = 0 from rfl, Nat.zero_div, Nat.zero_mod]

theorem wide_sum (f : Nat -> Nat -> ZMod wideParams.qKS) :
    (∑ i ∈ Finset.range wideParams.N, ∑ k ∈ Finset.range wideParams.digitCount, f i k) =
      f 0 0 + f 0 1 := by
  show (∑ i ∈ Finset.range 1, ∑ k ∈ Finset.range 2, f i k) = f 0 0 + f 0 1
  rw [Finset.sum_range_one, Finset.sum_range_succ, Finset.sum_range_one]

/--
`SetModulus` refuses a modulus of 61 bits, and with `n * qKS < 2 ^ 64` the sum of a row may
still be truncated.
-/
theorem not_keySwitch_correct :
    (1 * 2 ^ 60 < 2 ^ 64 ∧
      keySwitchGen { n := 1, N := 1, qKS := 2 ^ 60, baseKS := 2 ^ 30, digitCount := 2 }
        (NativeVectorT.zeros 1 3) (NativeVectorT.zeros 1 3) (fun _ _ _ => [0]) (fun _ _ _ => 0) =
        .error (.thrown (NativeVectorT.sizeMessage (2 ^ 60)))) ∧
    16 * (2 ^ 60 - 1) < 2 ^ 64 ∧
      ¬ SwitchesCorrectly wideParams wideSecret (NativeVectorT.zeros 1 (2 ^ 60 - 1)) wideUniform
        wideNoise wideCiphertext := by
  refine ⟨⟨by decide, ?_⟩, by decide, ?_⟩
  · unfold keySwitchGen
    simp only [NativeVectorT.switchModulus_throws (show 2 ^ 60 <= 2 ^ 60 from le_rfl),
      Fault.error_bind]
  · rintro ⟨K, ct, hK, hct, _, _, hphase, _⟩
    rcases wideKey with ⟨K', hK', hkey⟩
    cases Except.ok.inj (hK'.symm.trans hK)
    have hvalid : NativeVectorT.Valid wideParams.N wideParams.qKS wideCiphertext.m_a :=
      wideOld_valid
    rcases keySwitch_spec (by decide) (by decide) (by decide) hkey hvalid (by decide)
      with ⟨ct', hct', _, _, hphase'⟩
    cases Except.ok.inj (hct'.symm.trans hct)
    have hold : maskProduct wideParams.qKS wideParams.N wideCiphertext.m_a.data
        (NativeVectorT.zeros 1 (2 ^ 60 - 1)) = 0 := by
      refine Finset.sum_eq_zero fun i hi => ?_
      rw [coefficient, Nat.lt_one_iff.mp (Finset.mem_range.mp hi),
        show wideCiphertext.m_a.data.getD 0 0 = 0 from rfl, Nat.cast_zero, zero_mul]
    rw [hphase', wide_sum, wide_sum, wide_digits, wide_digits, phase, hold] at hphase
    have hpair : ((17 : Nat) : ZMod wideParams.qKS) + ((2 ^ 60 - 2 : Nat) : ZMod wideParams.qKS) =
        ((0 : Nat) : ZMod wideParams.qKS) := by
      have hnoise : (wideNoise 0 0 0 : ZMod wideParams.qKS) =
          ((2 ^ 60 - 2 : Nat) : ZMod wideParams.qKS) := rfl
      have hbody : (wideCiphertext.m_b : ZMod wideParams.qKS) = 0 := Nat.cast_zero
      have hrest : (wideNoise 0 0 1 : ZMod wideParams.qKS) = 0 := Nat.cast_zero
      rw [wideTarget, wideTarget, if_pos ⟨rfl, rfl⟩, if_neg (by decide), hnoise, hbody,
        hrest] at hphase
      rw [Nat.cast_zero]
      revert hphase
      generalize ((17 : Nat) : ZMod wideParams.qKS) = x
      generalize ((2 ^ 60 - 2 : Nat) : ZMod wideParams.qKS) = y
      intro hxy
      calc
        x + y = (0 - (-x + 0)) + y := by ring
        _ = (0 - 0 - (y + 0)) + y := by rw [hxy]
        _ = 0 := by ring
    rw [← Nat.cast_add] at hpair
    have hmod := (ZMod.natCast_eq_natCast_iff' _ _ _).mp hpair
    exact absurd hmod (by decide)

end LWEEncryptionScheme

end BinFHE
end OpenFHE
