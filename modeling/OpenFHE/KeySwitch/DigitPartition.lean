import OpenFHE.Core.AutomorphismMap
import OpenFHE.Core.NumberTheory.PrimeSearch
import OpenFHE.KeySwitch.Hybrid
import OpenFHE.KeySwitch.ParameterHistory

/-!
# The digit partition

The towers of a digit and its complementary basis are the whole extended chain, in the order in
which the raised digit is put together.  The special primes are searched downwards, so they
differ from each other, and the loop passes over the moduli of the chain.
-/

namespace OpenFHE
namespace KeySwitch

open OpenFHE.Core Foundation NativeInteger Hal

/-! ## The special primes -/

/-- The searches with the candidates that the primality test accepts on the way up and down. -/
def PrimeSearch.native (up down : Nat -> Bool) : PrimeSearch where
  FirstPrime := firstPrime up
  PreviousPrime := previousPrime down

section SpecialPrimes

variable {up down : Nat -> Bool} (hdown : forall c, c < 2 -> down c = false)
  {request : TableRequest}

include hdown

theorem previousOutside_spec {fuel pPrev p : Nat}
    (hprev : Candidate request.auxPrimeStep pPrev)
    (h : request.previousOutside (PrimeSearch.native up down) fuel pPrev = some p) :
    Candidate request.auxPrimeStep p ∧ p < pPrev ∧ p ∉ request.moduliQ := by
  induction fuel generalizing pPrev with
  | zero =>
      cases h
  | succ fuel ih =>
      unfold TableRequest.previousOutside at h
      split at h
      · cases h
      next next hnext =>
          rcases previousPrime_candidate hdown hprev hnext with ⟨hcandidate, hlt⟩
          split at h
          next hmem =>
              rcases ih hcandidate h with ⟨hp, hbelow, hnot⟩
              exact ⟨hp, hbelow.trans hlt, hnot⟩
          next hnot =>
              cases h
              exact ⟨hcandidate, hlt, hnot⟩

theorem specialPrimes_spec {count pPrev : Nat} {moduliP : List Nat}
    (hprev : Candidate request.auxPrimeStep pPrev)
    (h : request.specialPrimes (PrimeSearch.native up down) count pPrev = some moduliP) :
    moduliP.Pairwise (· > ·) ∧ forall p, p ∈ moduliP -> p < pPrev ∧ p ∉ request.moduliQ := by
  induction count generalizing pPrev moduliP with
  | zero =>
      cases h
      exact ⟨List.Pairwise.nil, by simp⟩
  | succ count ih =>
      unfold TableRequest.specialPrimes at h
      split at h
      · cases h
      next p hp =>
          rcases previousOutside_spec hdown hprev hp with ⟨hcandidate, hlt, hnot⟩
          rcases Option.map_eq_some_iff.mp h with ⟨rest, hrest, rfl⟩
          rcases ih hcandidate hrest with ⟨hsorted, hbelow⟩
          constructor
          · exact List.Pairwise.cons (fun q hq => (hbelow q hq).1) hsorted
          · intro q hq
            cases hq with
            | head => exact ⟨hlt, hnot⟩
            | tail _ hmem => exact ⟨(hbelow q hmem).1.trans hlt, (hbelow q hmem).2⟩

end SpecialPrimes

/-! ## Reassembly -/

namespace HybridParameters

variable (params : HybridParameters)

/-- The moduli of digit `part` of a ciphertext with `sizeQl` towers. -/
def digitModuli (sizeQl part : Nat) : Option (List Nat) := do
  let paramsPartQ <- params.paramsPartQ part
  let sizePartQl :=
    if part = Hybrid.numPartQl params sizeQl - 1 then sizeQl - params.numPerPartQ * part
    else paramsPartQ.length
  if ¬ sizePartQl <= paramsPartQ.length then none else some (paramsPartQ.take sizePartQl)

/-- The moduli of a raised digit, from the digit and its complementary basis. -/
def reassembledModuli (sizeQl part : Nat) : Option (List Nat) := do
  let digit <- params.digitModuli sizeQl part
  let compl <- params.paramsComplPartQ (sizeQl - 1) part
  let startPartIdx := params.numPerPartQ * part
  let endPartIdx := startPartIdx + digit.length
  (List.range (sizeQl + params.sizeP)).mapM fun i =>
    if i < startPartIdx then compl[i]?
    else if i < endPartIdx then digit[i - startPartIdx]?
    else compl[i - digit.length]?

section Reassembly

variable {params} (h : params.Distributes) {l j : Nat} (hl : l < params.sizeQ)
  (hj : j < params.digitCount l)

include h hl hj

theorem Distributes.digitModuli_eq : params.digitModuli (l + 1) j =
    some ((params.moduliQ.drop (j * params.numPerPartQ)).take (params.digitSize l j)) := by
  have hj' : j < params.numPartQ := lt_of_lt_of_le hj (h.digitCount_le hl)
  have hsize := h.digitSize_bounds hj
  have hdigit := h.digit_length hl hj
  have hceil : params.digitCount l = ceilDiv (l + 1) params.numPerPartQ := rfl
  unfold digitModuli
  rw [h.paramsPartQ_eq hj', Hybrid.numPartQl_eq h hl]
  simp only [Option.bind_eq_bind, Option.bind_some]
  rw [hceil, mul_comm params.numPerPartQ j, h.sizePartQj_eq hl hj,
    if_neg (not_not.mpr hdigit), List.take_take, Nat.min_eq_left hsize.2.1]

theorem Distributes.reassembledModuli_eq : params.reassembledModuli (l + 1) j =
    some (params.moduliQ.take (l + 1) ++ params.moduliP) := by
  have hsize := h.digitSize_bounds hj
  have hlenQ : params.moduliQ.length = params.sizeQ := rfl
  have hlenP : params.moduliP.length = params.sizeP := rfl
  rcases h.paramsComplPartQ_spec hl hj with ⟨basis, hbasis, hlength, hentry⟩
  have hdigit : ((params.moduliQ.drop (j * params.numPerPartQ)).take
      (params.digitSize l j)).length = params.digitSize l j := by
    rw [List.length_take, List.length_drop]
    omega
  have htotal : (params.moduliQ.take (l + 1) ++ params.moduliP).length =
      l + 1 + params.sizeP := by
    rw [List.length_append, List.length_take]
    omega
  unfold reassembledModuli
  rw [h.digitModuli_eq hl hj, Nat.add_sub_cancel, hbasis]
  simp only [Option.bind_eq_bind, Option.bind_some, hdigit]
  rw [mul_comm params.numPerPartQ j, ← htotal]
  apply mapM_range_eq_some
  intro i hi
  have hread : forall k, k < basis.length -> exists q, basis[k]? = some q :=
    fun k hk => ⟨_, List.getElem?_eq_getElem hk⟩
  split
  next hlow =>
      rcases hread i (by omega) with ⟨q, hq⟩
      rw [hq, List.getElem?_append_left (by rw [List.length_take]; omega),
        List.getElem?_take_of_lt (by omega), (hentry i q hq).1 hlow]
  next hge =>
      split
      next hmid =>
          rw [List.getElem?_take_of_lt (by omega), List.getElem?_drop,
            List.getElem?_append_left (by rw [List.length_take]; omega),
            List.getElem?_take_of_lt (by omega)]
          congr 1
          omega
      next hhigh =>
          rcases hread (i - params.digitSize l j) (by omega) with ⟨q, hq⟩
          rcases Nat.lt_or_ge i (l + 1) with hchain | hspecial
          · have hnext := (hentry _ q hq).2.1 (by omega) (by omega)
            rw [Nat.sub_add_cancel (by omega)] at hnext
            rw [hq, List.getElem?_append_left (by rw [List.length_take]; omega),
              List.getElem?_take_of_lt hchain, hnext]
          · have hnext := (hentry _ q hq).2.2 (by omega)
            rw [hq, List.getElem?_append_right (by rw [List.length_take]; omega),
              List.length_take, ← hnext]
            congr 1
            omega

end Reassembly

end HybridParameters

/-! ## Accepted requests -/

theorem hybridTables_params {params : HybridParameters} {hybrid : HybridTables}
    (h : TableRequest.hybridTables params = some hybrid) : hybrid.params = params := by
  unfold TableRequest.hybridTables at h
  simp only [Option.bind_eq_bind, Option.bind_eq_some_iff] at h
  rcases h with ⟨pModq, _, pInvModq, _, switchTables, _, hsome⟩
  cases hsome
  rfl

theorem TableRequest.Compares.distributes {request : TableRequest} (h : request.Compares)
    (hsize : request.sizeQ <= 2 ^ 31) (hparts : request.numPartQ < 2 ^ 32)
    {params : HybridParameters} (hmoduli : params.moduliQ = request.moduliQ)
    (hnum : params.numPartQ = request.numPartQ) : params.Distributes := by
  rcases h with ⟨_, hpart, hdist⟩
  have hpos := Nat.pos_of_ne_zero hpart
  have hsizeQ : params.sizeQ = request.sizeQ := congrArg List.length hmoduli
  have hper : params.numPerPartQ = request.numPerPartQ := by
    unfold HybridParameters.numPerPartQ TableRequest.numPerPartQ
    rw [hsizeQ, hnum]
  have hceil : request.numPerPartQ * request.numPartQ < request.sizeQ + request.numPartQ :=
    (ceilDiv_bounds hpos).2
  have hle : request.numPerPartQ * (request.numPartQ - 1) <=
      request.numPerPartQ * request.numPartQ := Nat.mul_le_mul_left _ (Nat.sub_le _ _)
  have hlt : request.numPerPartQ * (request.numPartQ - 1) < 2 ^ 32 := by
    rcases Nat.lt_or_ge (2 ^ 31) request.numPartQ with hmany | hfew
    · have hone : request.numPerPartQ <= 1 := by
        by_contra htwo
        have hdouble : 2 * request.numPartQ <= request.numPerPartQ * request.numPartQ :=
          Nat.mul_le_mul_right _ (by omega)
        omega
      calc
        request.numPerPartQ * (request.numPartQ - 1) <= 1 * (request.numPartQ - 1) :=
          Nat.mul_le_mul_right _ hone
        _ < 2 ^ 32 := by omega
    · omega
  constructor
  · rwa [hnum]
  · rw [hsizeQ, hper, hnum]
    intro hover
    apply hdist
    have hcast : ((request.numPerPartQ * (request.numPartQ - 1) : Nat) : Int) =
        request.numPerPartQ * (request.numPartQ - 1) := by
      rw [Nat.cast_mul, Nat.cast_pred hpos]
    rwa [← hcast, usint_natCast, Nat.mod_eq_of_lt hlt]

theorem precomputeCRTTables_hybrid {primes : PrimeSearch} {request : TableRequest}
    {sizePEstimate : Nat} {tables : CRTTables} {hybrid : HybridTables}
    (hrun : (precomputeCRTTables primes request sizePEstimate).1 = .ok tables)
    (hhybrid : tables.hybrid = some hybrid) :
    request.Compares ∧ exists firstP moduliP,
      primes.FirstPrime request.auxBits request.auxPrimeStep = some firstP ∧
      request.specialPrimes primes request.sizeP firstP = some moduliP ∧
      hybrid.params = {
        ringDimension := request.ringDimension
        moduliQ := request.moduliQ
        moduliP := moduliP
        numPartQ := request.numPartQ
        noiseScale := request.noiseScale } := by
  by_cases hcompares : request.Compares
  · refine ⟨hcompares, ?_⟩
    rw [precomputeCRTTables_of_compares hcompares] at hrun
    split at hrun
    · unfold TableRequest.buildTables at hrun
      split at hrun
      · cases hrun
      next moduliP hprimes =>
          rcases Option.bind_eq_some_iff.mp hprimes with ⟨firstP, hfirst, hspecial⟩
          dsimp only at hrun
          split at hrun
          · cases hrun
          next built hbuilt =>
              cases hrun
              cases hhybrid
              exact ⟨firstP, moduliP, hfirst, hspecial, hybridTables_params hbuilt⟩
    · cases hrun
  · unfold precomputeCRTTables at hrun
    split at hrun
    next hks =>
        split at hrun
        next hzero =>
            cases hrun
        next hpart =>
            split at hrun
            · cases hrun
            next hdist =>
                exact absurd ⟨hks, hpart, hdist⟩ hcompares
    next hks =>
        cases hrun
        cases hhybrid

/--
Every digit of the tables of an accepted request has a tower.  At every level a digit in use
and its complementary basis are put together to the chain up to the level and the special
primes, which differ from each other and from the chain.  The test rejects the numbers below
two, and accepts a prime above the given size that leaves room for a step in the word; the
numbers of towers and of digits are counted in 32 bits.
-/
theorem hybridPartition_spec {up down : Nat -> Bool}
    (hdown : forall c, c < 2 -> down c = false) {request : TableRequest} {accepted : Nat}
    (haccepted : Candidate request.auxPrimeStep accepted)
    (habove : 2 ^ request.auxBits < accepted) (htest : up accepted = true)
    (hsize : request.sizeQ <= 2 ^ 31) (hparts : request.numPartQ < 2 ^ 32)
    {sizePEstimate : Nat} {tables : CRTTables} {hybrid : HybridTables}
    (hrun : (precomputeCRTTables (PrimeSearch.native up down) request sizePEstimate).1 =
      .ok tables)
    (hhybrid : tables.hybrid = some hybrid) :
    hybrid.params.moduliQ = request.moduliQ ∧ hybrid.params.numPartQ = request.numPartQ ∧
      (forall j, j < request.numPartQ ->
        exists digit, hybrid.params.paramsPartQ j = some digit ∧ digit ≠ []) ∧
      (forall l, l < request.sizeQ -> forall j, j < Hybrid.numPartQl hybrid.params (l + 1) ->
        (exists digit, hybrid.params.digitModuli (l + 1) j = some digit ∧ digit ≠ []) ∧
        hybrid.params.reassembledModuli (l + 1) j =
          some (request.moduliQ.take (l + 1) ++ hybrid.params.moduliP)) ∧
      hybrid.params.moduliP.Nodup ∧
      forall p, p ∈ hybrid.params.moduliP -> p ∉ request.moduliQ := by
  rcases precomputeCRTTables_hybrid hrun hhybrid with
    ⟨hcompares, firstP, moduliP, hfirst, hspecial, hparams⟩
  have hcandidate := firstPrime_candidate haccepted habove htest hfirst
  rcases specialPrimes_spec hdown hcandidate hspecial with ⟨hsorted, houtside⟩
  have hmoduli : hybrid.params.moduliQ = request.moduliQ := by rw [hparams]
  have hnum : hybrid.params.numPartQ = request.numPartQ := by rw [hparams]
  have hP : hybrid.params.moduliP = moduliP := by rw [hparams]
  have hsizeQ : hybrid.params.sizeQ = request.sizeQ := congrArg List.length hmoduli
  have hdist := hcompares.distributes hsize hparts hmoduli hnum
  rw [hP]
  refine ⟨hmoduli, hnum, ?_, ?_, ?_, fun p hp => (houtside p hp).2⟩
  · intro j hj
    rw [← hnum] at hj
    refine ⟨_, hdist.paramsPartQ_eq hj, ?_⟩
    have hstart := hdist.start_lt hj
    have hper := hdist.numPerPartQ_pos
    apply List.ne_nil_of_length_pos
    rw [List.length_take, List.length_drop]
    exact Nat.lt_min.mpr ⟨hper, Nat.sub_pos_of_lt hstart⟩
  · intro l hl j hj
    rw [← hsizeQ] at hl
    rw [Hybrid.numPartQl_eq hdist hl] at hj
    constructor
    · refine ⟨_, hdist.digitModuli_eq hl hj, ?_⟩
      have hsize := hdist.digitSize_bounds hj
      apply List.ne_nil_of_length_pos
      rw [List.length_take, List.length_drop]
      exact Nat.lt_min.mpr ⟨hsize.1, Nat.sub_pos_of_lt (by
        change _ < hybrid.params.sizeQ
        omega)⟩
    · rw [hdist.reassembledModuli_eq hl hj, hmoduli, hP]
  · exact hsorted.imp fun h => (Nat.ne_of_lt h).symm

/-- Three towers in two digits; two moduli of the chain lie between the special primes. -/
def chainRequest : TableRequest where
  ringDimension := 4
  auxPrimeStep := 8
  moduliQ := [41, 97, 113]
  noiseScale := 1
  ksTech := .HYBRID
  numPartQ := 2
  auxBits := 7

/-- The primes of the progression that the search of the request meets. -/
def chainTest (c : Nat) : Bool := decide (c ∈ [137, 113, 97, 89, 73])

theorem hybridPartition_chainRequest : exists tables hybrid,
    (precomputeCRTTables (PrimeSearch.native chainTest chainTest) chainRequest 0).1 =
      .ok tables ∧ tables.hybrid = some hybrid ∧
    hybrid.params.moduliQ = chainRequest.moduliQ ∧
    hybrid.params.numPartQ = chainRequest.numPartQ ∧
    (forall j, j < chainRequest.numPartQ ->
      exists digit, hybrid.params.paramsPartQ j = some digit ∧ digit ≠ []) ∧
    (forall l, l < chainRequest.sizeQ -> forall j, j < Hybrid.numPartQl hybrid.params (l + 1) ->
      (exists digit, hybrid.params.digitModuli (l + 1) j = some digit ∧ digit ≠ []) ∧
      hybrid.params.reassembledModuli (l + 1) j =
        some (chainRequest.moduliQ.take (l + 1) ++ hybrid.params.moduliP)) ∧
    hybrid.params.moduliP.Nodup ∧
    forall p, p ∈ hybrid.params.moduliP -> p ∉ chainRequest.moduliQ := by
  have hcompares : chainRequest.Compares := ⟨rfl, by decide, by decide⟩
  have hprimes : ((PrimeSearch.native chainTest chainTest).FirstPrime
      chainRequest.auxBits chainRequest.auxPrimeStep).bind
      (chainRequest.specialPrimes (PrimeSearch.native chainTest chainTest)
        chainRequest.sizeP) = some [89, 73] := by decide +kernel
  have htables : (TableRequest.hybridTables
      { ringDimension := 4, moduliQ := [41, 97, 113], moduliP := [89, 73], numPartQ := 2,
        noiseScale := 1 }).isSome = true := by decide +kernel
  rcases Option.isSome_iff_exists.mp htables with ⟨hybrid, hhybrid⟩
  have hbuild : chainRequest.buildTables (PrimeSearch.native chainTest chainTest) =
      .ok { request := chainRequest, hybrid := some hybrid } := by
    unfold TableRequest.buildTables
    rw [hprimes]
    dsimp only
    split
    next hnone =>
        cases hnone.symm.trans hhybrid
    next built hbuilt =>
        cases hbuilt.symm.trans hhybrid
        rfl
  have hrun : (precomputeCRTTables (PrimeSearch.native chainTest chainTest) chainRequest 0).1 =
      .ok { request := chainRequest, hybrid := some hybrid } := by
    rw [precomputeCRTTables_of_compares hcompares, if_pos (Or.inl rfl), hbuild]
  have hcandidate : Candidate chainRequest.auxPrimeStep 137 := ⟨by decide, by decide, by decide⟩
  refine ⟨_, hybrid, hrun, rfl, hybridPartition_spec ?_ hcandidate (by decide) (by decide)
    (by decide) (by decide) hrun rfl⟩
  intro c hc
  interval_cases c
  · rfl
  · rfl

end KeySwitch
end OpenFHE
