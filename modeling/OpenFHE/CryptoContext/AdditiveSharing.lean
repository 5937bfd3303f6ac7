import OpenFHE.CryptoContext.SecretSharing

/-!
# Recovery from additive shares

The shares of the other parties add up to the key.  Recovery adds as many shares as
the threshold says, so that the key comes back when the threshold counts them all.
-/

namespace OpenFHE
namespace CryptoContext

open OpenFHE.Core Foundation Hal NativeInteger

/-- A thrown exception, or a result with the property `P`. -/
def ThrowsOr {α : Type} (P : α -> Prop) : Except Failure α -> Prop
  | .error (.thrown _) => True
  | .error .undefined => False
  | .ok x => P x

/-- For all keys and draws, sharing and recovery throw or return the key. -/
def AdditiveContract (cache : Poly.TableCache) (moduli : List Nat) (n N threshold index : Nat) :
    Prop :=
  forall draw sk key, (forall t, (draw t : DCRTPoly).WellFormed n .EVALUATION moduli) ->
    DCRTPoly.WellFormed n .EVALUATION moduli sk ->
    ThrowsOr (fun shares => forall available : SecretShares, available.Sublist shares ->
        threshold <= available.length ->
        ThrowsOr (fun recovered => recovered = sk)
          (recoverSharedKey cache moduli n key available N threshold .additive))
      (shareKeys cache moduli n draw sk N threshold index .additive)

/-!
## Parties
-/

theorem mem_otherParties {N index i : Nat} :
    i ∈ otherParties N index <-> (1 <= i ∧ i <= N) ∧ i ≠ index := by
  unfold otherParties
  rw [List.mem_filter, List.mem_range'_1]
  simp
  omega

theorem nodup_otherParties (N index : Nat) : (otherParties N index).Nodup :=
  List.Nodup.filter _ List.nodup_range'

theorem length_otherParties_inside {N index : Nat} (hlow : 1 <= index) (hhigh : index <= N) :
    (otherParties N index).length = N - 1 := by
  have hmem : index ∈ List.range' 1 N := by
    rw [List.mem_range'_1]
    omega
  have herase : otherParties N index = (List.range' 1 N).erase index := by
    rw [List.Nodup.erase_eq_filter List.nodup_range']
    unfold otherParties
    apply List.filter_congr
    intro i _
    apply Bool.eq_iff_iff.mpr
    simp
  rw [herase, List.length_erase_of_mem hmem, List.length_range']

theorem otherParties_outside {N index : Nat} (h : ¬ (1 <= index ∧ index <= N)) :
    otherParties N index = List.range' 1 N := by
  unfold otherParties
  apply List.filter_eq_self.mpr
  intro i hi
  rw [List.mem_range'_1] at hi
  simp
  omega

theorem lookup_zip {α β : Type} [DecidableEq α] {l : List α} {vec : List β} (hnodup : l.Nodup)
    {i : Nat} {x : α} {y : β} (hx : l[i]? = some x) (hy : vec[i]? = some y) :
    (l.zip vec).lookup x = some y := by
  induction l generalizing vec i with
  | nil => cases hx
  | cons a l ih =>
      cases vec with
      | nil => cases hy
      | cons b vec =>
          rcases List.nodup_cons.mp hnodup with ⟨hnotin, htail⟩
          cases i with
          | zero =>
              cases hx
              cases hy
              exact List.lookup_cons_self
          | succ i =>
              have hne : (x == a) = false := by
                apply beq_eq_false_iff_ne.mpr
                intro heq
                apply hnotin
                rw [← heq]
                exact List.mem_of_getElem? hx
              rw [List.zip_cons_cons, List.lookup_cons, hne]
              exact ih htail hx hy

theorem clientIndexes_zip {N index : Nat} {vec : List DCRTPoly}
    (hlength : (otherParties N index).length <= vec.length) :
    clientIndexes ((otherParties N index).zip vec) N = otherParties N index := by
  unfold clientIndexes
  conv_rhs => unfold otherParties
  apply List.filter_congr
  intro i hi
  by_cases hmem : i ∈ otherParties N index
  · rcases List.mem_iff_getElem?.mp hmem with ⟨j, hj⟩
    have hj_lt := (List.getElem?_eq_some_iff.mp hj).1
    have hvec := List.getElem?_eq_getElem (show j < vec.length by omega)
    rw [lookup_zip (nodup_otherParties N index) hj hvec]
    simp [(mem_otherParties.mp hmem).2]
  · have hnone : ((otherParties N index).zip vec).lookup i = none := by
      apply List.lookup_eq_none_iff.mpr
      intro p hp
      apply bne_iff_ne.mpr
      intro heq
      apply hmem
      rw [heq]
      exact (List.of_mem_zip hp).1
    have heq : i = index := by
      by_contra hne
      apply hmem
      rw [mem_otherParties]
      rw [List.mem_range'_1] at hi
      omega
    rw [hnone, heq]
    simp

section Additive

variable {cache : Poly.TableCache} {moduli : List Nat} {n N threshold : Nat}

theorem checkParties_ok (hN : 2 <= N) (hthreshold : N / 2 < threshold)
    (hlt : forall q, q ∈ moduli -> N < q) : checkParties moduli N threshold = .ok () := by
  have hany : (moduli.any fun q => N >= q) = false := by
    apply List.any_eq_false.mpr
    intro q hq
    have := hlt q hq
    simp
    omega
  unfold checkParties
  rw [if_neg (by omega), if_neg (by omega), if_neg (by rw [hany]; exact Bool.false_ne_true)]

variable (hmoduli : forall q, q ∈ moduli -> Poly.NttModulus q)

include hmoduli

theorem sumOfElems_spec (shares : SecretShares) (clients : List Nat) {u : Nat -> DCRTPoly}
    (hclient : forall i, i < threshold -> exists party, clients[i]? = some party ∧
      shares.lookup party = some (u i))
    (hu : forall i, i < threshold -> (u i).WellFormed n .EVALUATION moduli) :
    exists sum, sumOfElems moduli n shares clients threshold = some sum ∧
      DCRTPoly.Denotes n .EVALUATION moduli
        (∑ i ∈ Finset.range threshold, DCRTPoly.residues (u i)) sum := by
  have hpos : forall q, q ∈ moduli -> 0 < q := fun q hq => by
    have := (hmoduli q hq).one_lt
    omega
  apply foldlM_range_spec
    (fun c sum => DCRTPoly.Denotes n .EVALUATION moduli
      (∑ i ∈ Finset.range c, DCRTPoly.residues (u i)) sum)
    (DCRTPoly.zero_denotes hpos n .EVALUATION)
  intro i hi sum hsum
  rcases hclient i hi with ⟨party, hparty, hlookup⟩
  rcases DCRTPoly.plusEq_denotes hmoduli hsum (hu i hi).denotes with ⟨sum', hsum', hdenotes⟩
  refine ⟨sum', ?_, ?_⟩
  · rw [hparty, Option.bind_eq_bind, Option.bind_some, hlookup]
    exact hsum'
  · rw [Finset.sum_range_succ]
    exact hdenotes

theorem additiveVector_spec {draw : Nat -> DCRTPoly} {sk : DCRTPoly}
    (hdraw : forall t, (draw t).WellFormed n .EVALUATION moduli)
    (hsk : sk.WellFormed n .EVALUATION moduli) (N : Nat) :
    exists last, additiveVector draw sk N =
        some ((List.range (N - 3 + 1)).map draw ++ [last]) ∧
      DCRTPoly.Denotes n .EVALUATION moduli (DCRTPoly.residues sk -
        ∑ t ∈ Finset.range (N - 3 + 1), DCRTPoly.residues (draw t)) last := by
  rcases foldlM_range'_spec 1 (n := N - 1 - 1 - 1)
    (f := fun (s : DCRTPoly × List DCRTPoly) i => do
      let rsum <- DCRTPoly.plusEq s.1 (draw i)
      return (rsum, s.2 ++ [draw i]))
    (s := (draw 0, [draw 0]))
    (fun c s => s.2 = (List.range (c + 1)).map draw ∧
      DCRTPoly.Denotes n .EVALUATION moduli
        (∑ t ∈ Finset.range (c + 1), DCRTPoly.residues (draw t)) s.1)
    (by
      constructor
      · rfl
      · rw [Finset.sum_range_one]
        exact (hdraw 0).denotes)
    (by
      intro c _ s hs
      rcases DCRTPoly.plusEq_denotes hmoduli hs.2 (hdraw (c + 1)).denotes with
        ⟨rsum, hrsum, hdenotes⟩
      refine ⟨(rsum, s.2 ++ [draw (c + 1)]), ?_, ?_, ?_⟩
      · rw [Nat.add_comm 1 c, hrsum]
        rfl
      · rw [hs.1, List.range_succ (n := c + 1), List.map_append]
        rfl
      · rw [Finset.sum_range_succ]
        exact hdenotes) with ⟨s, hs, hvec, hsum⟩
  rcases DCRTPoly.minus_denotes hmoduli hsk.denotes hsum with ⟨last, hlast, hdenotes⟩
  have hcount : N - 1 - 1 - 1 = N - 3 := by omega
  rw [hcount] at hs hvec hdenotes
  refine ⟨last, ?_, hdenotes⟩
  unfold additiveVector
  dsimp only
  rw [hcount, hs, Option.bind_eq_bind, Option.bind_some, hlast, hvec]
  rfl

omit hmoduli in
theorem shareKeys_additive {draw : Nat -> DCRTPoly} {sk : DCRTPoly} {index : Nat}
    (hcheck : checkParties moduli N threshold = .ok ()) :
    shareKeys cache moduli n draw sk N threshold index .additive =
      orUndefined (additiveShares draw sk N index) := by
  unfold shareKeys
  rw [hcheck]
  rfl

omit hmoduli in
theorem recoverSharedKey_additive {sk : DCRTPoly} {shares : SecretShares} {clients : List Nat}
    (hcheck : checkParties moduli N threshold = .ok ())
    (hclients : clientIndexes shares N = clients) (hshares : threshold <= shares.length)
    (hlength : threshold <= clients.length) :
    recoverSharedKey cache moduli n sk shares N threshold .additive =
      orUndefined (sumOfElems moduli n shares clients threshold) := by
  unfold recoverSharedKey
  rw [if_neg (by omega), hcheck, hclients]
  dsimp only
  rw [if_neg (by omega)]
  rfl

omit hmoduli in
theorem additiveShares_eq {draw : Nat -> DCRTPoly} {sk : DCRTPoly} (index : Nat)
    {vec : List DCRTPoly} (hvec : additiveVector draw sk N = some vec)
    (hlength : (otherParties N index).length <= vec.length) :
    additiveShares draw sk N index = some ((otherParties N index).zip vec) := by
  unfold additiveShares
  rw [hvec]
  exact mapM_zipIdx_eq_zip hlength

omit hmoduli in
theorem additiveShares_eq_none {draw : Nat -> DCRTPoly} {sk : DCRTPoly} {index : Nat}
    {vec : List DCRTPoly} (hvec : additiveVector draw sk N = some vec)
    (hlength : vec.length < (otherParties N index).length) :
    additiveShares draw sk N index = none := by
  have hlast := List.getElem?_eq_getElem hlength
  unfold additiveShares
  rw [hvec, Option.bind_eq_bind, Option.bind_some]
  apply mapM_eq_none (x := ((otherParties N index)[vec.length], vec.length))
  · apply List.mem_of_getElem? (i := vec.length)
    rw [List.getElem?_zipIdx, hlast, Nat.zero_add]
    rfl
  · rw [List.getElem?_eq_none le_rfl]
    rfl

variable (cache) in
theorem recoverSharedKey_all (sk : DCRTPoly) {index : Nat} {vec : List DCRTPoly}
    (hcheck : checkParties moduli N threshold = .ok ())
    (hlength : (otherParties N index).length <= vec.length)
    (hthreshold : threshold <= (otherParties N index).length) {u : Nat -> DCRTPoly}
    (hvec : forall i, i < threshold -> vec[i]? = some (u i))
    (hu : forall i, i < threshold -> (u i).WellFormed n .EVALUATION moduli) :
    exists sum, recoverSharedKey cache moduli n sk ((otherParties N index).zip vec) N threshold
        .additive = .ok sum ∧
      DCRTPoly.Denotes n .EVALUATION moduli
        (∑ i ∈ Finset.range threshold, DCRTPoly.residues (u i)) sum := by
  have hzip : threshold <= ((otherParties N index).zip vec).length := by
    rw [List.length_zip]
    omega
  rcases sumOfElems_spec hmoduli ((otherParties N index).zip vec) (otherParties N index)
    (by
      intro i hi
      have hparty := List.getElem?_eq_getElem (show i < (otherParties N index).length by omega)
      exact ⟨_, hparty, lookup_zip (nodup_otherParties N index) hparty (hvec i hi)⟩)
    hu with ⟨sum, hsum, hdenotes⟩
  refine ⟨sum, ?_, hdenotes⟩
  rw [recoverSharedKey_additive hcheck (clientIndexes_zip hlength) hzip hthreshold, hsum]
  rfl

variable (cache) in
theorem recoverSharedKey_whole (key : DCRTPoly) {draw : Nat -> DCRTPoly} {sk : DCRTPoly} {index : Nat}
    (hdraw : forall t, (draw t).WellFormed n .EVALUATION moduli)
    (hsk : sk.WellFormed n .EVALUATION moduli)
    (hcheck : checkParties moduli N threshold = .ok ())
    (hparties : (otherParties N index).length = threshold) (hcount : N - 3 + 2 = threshold)
    {shares : SecretShares} (hshares : additiveShares draw sk N index = some shares) :
    shares.length = threshold ∧
      recoverSharedKey cache moduli n key shares N threshold .additive = .ok sk := by
  rcases additiveVector_spec hmoduli hdraw hsk N with ⟨last, hvector, hlast⟩
  have hlength : ((List.range (N - 3 + 1)).map draw ++ [last]).length = threshold := by
    rw [List.length_append, List.length_map, List.length_range, List.length_singleton]
    exact hcount
  rw [additiveShares_eq index hvector (by omega)] at hshares
  rw [← Option.some.inj hshares]
  constructor
  · rw [List.length_zip]
    omega
  · rcases recoverSharedKey_all cache hmoduli key hcheck
      (hlength.symm ▸ hparties.le) hparties.ge
      (u := fun i => if i < N - 3 + 1 then draw i else last)
      (by
        intro i hi
        by_cases hdrawn : i < N - 3 + 1
        · rw [List.getElem?_append_left (by simpa using hdrawn), List.getElem?_map,
            List.getElem?_range hdrawn, if_pos hdrawn]
          rfl
        · have heq : i = ((List.range (N - 3 + 1)).map draw).length := by
            rw [List.length_map, List.length_range]
            omega
          rw [heq, List.getElem?_concat_length, ← heq, if_neg hdrawn])
      (by
        intro i _
        split
        · exact hdraw i
        · exact hlast.wellFormed) with ⟨sum, hsum, hdenotes⟩
    rw [hsum]
    apply congrArg Except.ok
    apply DCRTPoly.Denotes.eq_of_residues _ hsk
    apply hdenotes.congr
    intro i q hq r hr
    have hdraws : ∑ t ∈ Finset.range (N - 3 + 1),
        DCRTPoly.residues (if t < N - 3 + 1 then draw t else last) i q r =
          ∑ t ∈ Finset.range (N - 3 + 1), DCRTPoly.residues (draw t) i q r := by
      apply Finset.sum_congr rfl
      intro t ht
      rw [if_pos (Finset.mem_range.mp ht)]
    have hmissing := hlast.value_eq i q hq r hr
    rw [← hcount, show N - 3 + 2 = N - 3 + 1 + 1 from rfl, Finset.sum_range_succ,
      if_neg (lt_irrefl _)]
    simp only [Pi.add_apply, Finset.sum_apply]
    rw [hdraws]
    unfold DCRTPoly.residues at hmissing ⊢
    rw [hmissing]
    simp [Finset.sum_apply]

/-- One in every position of the evaluation format. -/
def ones (moduli : List Nat) (n : Nat) : DCRTPoly :=
  DCRTPoly.constant moduli (List.replicate n 1)

theorem ones_wellFormed : (ones moduli n).WellFormed n .EVALUATION moduli := by
  apply DCRTPoly.constant_wellFormed _ List.length_replicate
  intro q hq x hx
  rw [List.eq_of_mem_replicate hx]
  exact (hmoduli q hq).one_lt

theorem not_contract_of_few {index : Nat} (hne : moduli ≠ []) (hn : 0 < n) (hN : 3 <= N)
    (hcheck : checkParties moduli N threshold = .ok ()) (hfew : threshold < N - 1)
    (hindex : 1 <= index ∧ index <= N) :
    ¬ AdditiveContract cache moduli n N threshold index := by
  intro hcontract
  have hpos : forall q, q ∈ moduli -> 0 < q := fun q hq => by
    have := (hmoduli q hq).one_lt
    omega
  have hzero := DCRTPoly.zero_wellFormed hpos n .EVALUATION
  have hones := ones_wellFormed (n := n) hmoduli
  have hparties := length_otherParties_inside hindex.1 hindex.2
  rcases additiveVector_spec hmoduli (fun _ => hzero) hones N with ⟨last, hvector, _⟩
  have hlength : ((List.range (N - 3 + 1)).map
      (fun _ => DCRTPoly.zero moduli n .EVALUATION) ++ [last]).length = N - 1 := by
    rw [List.length_append, List.length_map, List.length_range, List.length_singleton]
    omega
  have hbranch := hcontract _ _ (ones moduli n) (fun _ => hzero) hones
  rw [shareKeys_additive hcheck, additiveShares_eq index hvector (by omega)] at hbranch
  have hrecover := hbranch _ (List.Sublist.refl _) (by
    rw [List.length_zip]
    omega)
  rcases recoverSharedKey_all cache (n := n) hmoduli (ones moduli n) hcheck
    (hlength.symm ▸ hparties.le) (by omega)
    (u := fun _ => DCRTPoly.zero moduli n .EVALUATION)
    (by
      intro i hi
      have hi' : i < N - 3 + 1 := by omega
      rw [List.getElem?_append_left (by simpa using hi'), List.getElem?_map,
        List.getElem?_range hi']
      rfl)
    (fun _ _ => hzero) with ⟨sum, hsum, hdenotes⟩
  rw [hsum] at hrecover
  have hsame : sum = ones moduli n := hrecover
  rcases List.exists_mem_of_ne_nil moduli hne with ⟨q, hq⟩
  rcases List.mem_iff_getElem?.mp hq with ⟨i, hi⟩
  have hvalue := hdenotes.value_eq i q hi 0 hn
  have hleft : (DCRTPoly.value (ones moduli n) i 0 : ZMod q) = 1 := by
    have htower : (ones moduli n)[i]? = some ⟨q, .EVALUATION, List.replicate n 1⟩ := by
      rw [ones, DCRTPoly.constant, List.getElem?_map, hi]
      rfl
    rw [DCRTPoly.value_eq htower]
    simp [Poly.value, List.getD_eq_getElem?_getD, hn]
  have hright : (∑ _i ∈ Finset.range threshold,
      DCRTPoly.residues (DCRTPoly.zero moduli n .EVALUATION)) i q 0 = 0 := by
    rw [Finset.sum_const]
    have hz := (DCRTPoly.zero_denotes hpos n .EVALUATION).value_eq i q hi 0 hn
    simp only [Pi.smul_apply, DCRTPoly.residues]
    rw [hz]
    simp
  rw [hsame, hleft, hright] at hvalue
  have : Fact (1 < q) := ⟨(hmoduli q hq).one_lt⟩
  exact one_ne_zero hvalue

end Additive

/--
Recovery returns the key if the threshold reaches the number of other parties.  The
owner has to be one of the parties: otherwise the vector is too short, except for two
parties.
-/
theorem additiveContract_iff {cache : Poly.TableCache} {moduli : List Nat}
    {n N threshold index : Nat} (hmoduli : forall q, q ∈ moduli -> Poly.NttModulus q)
    (hne : moduli ≠ []) (hn : 0 < n) (hN : 2 <= N) (hthreshold : N / 2 < threshold)
    (hlt : forall q, q ∈ moduli -> N < q) :
    AdditiveContract cache moduli n N threshold index <->
      N - 1 <= threshold ∧ (1 <= index ∧ index <= N ∨ N = 2) := by
  have hcheck := checkParties_ok hN hthreshold hlt
  constructor
  · intro hcontract
    have hindex : 1 <= index ∧ index <= N ∨ N = 2 := by
      by_contra hnot
      have houtside : ¬ (1 <= index ∧ index <= N) := fun h => hnot (Or.inl h)
      have hones := ones_wellFormed (n := n) hmoduli
      rcases additiveVector_spec hmoduli (fun _ => hones) hones N with ⟨last, hvector, _⟩
      have hbranch := hcontract _ _ (ones moduli n) (fun _ => hones) hones
      rw [shareKeys_additive hcheck, additiveShares_eq_none hvector (by
        rw [otherParties_outside houtside, List.length_range', List.length_append,
          List.length_map, List.length_range, List.length_singleton]
        omega)] at hbranch
      exact hbranch
    constructor
    · by_contra hfew
      have hinside : 1 <= index ∧ index <= N := by
        cases hindex with
        | inl h => exact h
        | inr h => omega
      exact not_contract_of_few hmoduli hne hn (by omega) hcheck (by omega) hinside hcontract
    · exact hindex
  · rintro ⟨hall, hindex⟩ draw sk key hdraw hsk
    have hparties : (otherParties N index).length <= N - 3 + 2 ∧
        (threshold <= (otherParties N index).length ->
          (otherParties N index).length = threshold ∧ N - 3 + 2 = threshold) := by
      by_cases hinside : 1 <= index ∧ index <= N
      · rw [length_otherParties_inside hinside.1 hinside.2]
        omega
      · rw [otherParties_outside hinside, List.length_range']
        omega
    rcases additiveVector_spec hmoduli hdraw hsk N with ⟨last, hvector, _⟩
    have hshares := additiveShares_eq index hvector (by
      rw [List.length_append, List.length_map, List.length_range, List.length_singleton]
      exact hparties.1)
    rw [shareKeys_additive hcheck, hshares]
    intro available hsublist henough
    have hle := hsublist.length_le
    have hshort : ((otherParties N index).zip
        ((List.range (N - 3 + 1)).map draw ++ [last])).length =
          min (otherParties N index).length ((List.range (N - 3 + 1)).map draw ++ [last]).length :=
      List.length_zip
    rcases hparties.2 (by omega) with ⟨hlength, hcount⟩
    rcases recoverSharedKey_whole cache hmoduli key hdraw hsk hcheck hlength
      hcount hshares with ⟨hsize, hrecover⟩
    rw [hsublist.eq_of_length (by omega), hrecover]
    exact rfl

theorem smallModuli {q : Nat} (hq : q ∈ [13]) : Poly.NttModulus q ∧ 5 < q := by
  rw [List.mem_singleton.mp hq]
  exact ⟨⟨by decide, by decide, by decide⟩, by decide⟩

theorem additiveContract_iff_four_of_five :
    AdditiveContract Poly.smallCache [13] 2 5 4 1 <->
      5 - 1 <= 4 ∧ (1 <= 1 ∧ 1 <= 5 ∨ 5 = 2) :=
  additiveContract_iff (fun _ hq => (smallModuli hq).1) (by decide) (by decide) (by decide)
    (by decide) (fun _ hq => (smallModuli hq).2)

/-- Three of the four shares of five parties give zero instead of the key. -/
theorem not_additiveContract_three_of_five :
    ¬ AdditiveContract Poly.smallCache [13] 2 5 3 1 :=
  not_contract_of_few (fun _ hq => (smallModuli hq).1) (by decide) (by decide) (by decide)
    (checkParties_ok (by decide) (by decide) (fun _ hq => (smallModuli hq).2)) (by decide)
    ⟨by decide, by decide⟩

end CryptoContext
end OpenFHE
