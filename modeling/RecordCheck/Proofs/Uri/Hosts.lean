import Mathlib.Data.List.Induction
import Mathlib.Data.Nat.Digits.Defs
import RecordCheck.Proofs.Uri.Encoded

/-!
# Normal hosts

The normal form of a host is read as itself: an address of either version of IP from its text, a name
of small letters in ASCII as it stands, and the host of any other scheme with what was encoded in it.
-/

namespace RecordCheck

set_option autoImplicit false

namespace Host

/-! ## Numbers -/

section

variable {base n d : Nat} {s : List Char}

theorem hexValue?_digitChar (h : d < 16) : Percent.hexValue? (Nat.digitChar d) = some d := by
  have hall : ∀ d < 16, Percent.hexValue? (Nat.digitChar d) = some d := by decide
  exact hall d h

theorem natIn?_append_digit (hd : d < base) (hbase : base ≤ 16) (s : List Char) :
    natIn? base (s ++ [Nat.digitChar d]) = (natIn? base s).map (· * base + d) := by
  unfold natIn?
  rw [List.foldlM_append]
  cases s.foldlM (m := Option) _ 0 with
  | none => rfl
  | some n =>
    simp only [List.foldlM_cons, List.foldlM_nil, hexValue?_digitChar (Nat.lt_of_lt_of_le hd hbase),
      if_pos hd]
    rfl

/-- The digits of a number are read as the number. -/
theorem natIn?_toDigits (hlow : 1 < base) (hhigh : base ≤ 16) (n : Nat) :
    natIn? base (Nat.toDigits base n) = some n := by
  induction n using Nat.strongRecOn with
  | ind n ih =>
    rcases Nat.lt_or_ge n base with hlt | hge
    · rw [Nat.toDigits_of_lt_base hlt, ← List.nil_append [Nat.digitChar n],
        natIn?_append_digit hlt hhigh]
      show some (0 * base + n) = some n
      rw [Nat.zero_mul, Nat.zero_add]
    · rw [Nat.toDigits_of_base_le hlow hge, natIn?_append_digit (Nat.mod_lt n (by omega)) hhigh,
        ih (n / base) (Nat.div_lt_self (by omega) hlow)]
      show some (n / base * base + n % base) = some n
      rw [Nat.div_add_mod']

theorem natIn?_lt (h : natIn? base s = some n) : n < base ^ s.length := by
  induction s using List.reverseRecOn generalizing n with
  | nil =>
    cases h
    exact Nat.one_pos
  | append_singleton s c ih =>
    unfold natIn? at h ih
    rw [List.foldlM_append] at h
    obtain ⟨m, hm, h⟩ := Option.bind_eq_some_iff.mp h
    have hlt := ih hm
    simp only [List.foldlM_cons, List.foldlM_nil] at h
    obtain ⟨k, hk, h⟩ := Option.bind_eq_some_iff.mp h
    cases h
    split at hk
    · next d hd =>
      split at hk
      · next hdigit =>
        cases hk
        rw [List.length_append, List.length_singleton, Nat.pow_succ]
        calc m * base + d < m * base + base := Nat.add_lt_add_left hdigit _
          _ = (m + 1) * base := (Nat.succ_mul m base).symm
          _ ≤ base ^ s.length * base := Nat.mul_le_mul_right base hlt
      · cases hk
    · cases hk

/-- The letters of digits are small. -/
theorem hexText_eq (n : Nat) : hexText n = Nat.toDigits 16 n := by
  unfold hexText lower
  have hsmall : ∀ d < 16, (Nat.digitChar d).toLower = Nat.digitChar d := by decide
  induction n using Nat.strongRecOn with
  | ind n ih =>
    rcases Nat.lt_or_ge n 16 with hlt | hge
    · rw [Nat.toDigits_of_lt_base hlt, List.map_singleton, hsmall n hlt]
    · rw [Nat.toDigits_of_base_le (by decide) hge, List.map_append, ih (n / 16) (by omega),
        List.map_singleton, hsmall (n % 16) (by omega)]

theorem exists_digit_of_mem_hexText {c : Char} (h : c ∈ hexText n) :
    ∃ d < 16, c = Nat.digitChar d := by
  rw [hexText_eq] at h
  induction n using Nat.strongRecOn with
  | ind n ih =>
    rcases Nat.lt_or_ge n 16 with hlt | hge
    · rw [Nat.toDigits_of_lt_base hlt] at h
      exact ⟨n, hlt, List.mem_singleton.mp h⟩
    · rw [Nat.toDigits_of_base_le (by decide) hge] at h
      rcases List.mem_append.mp h with h | h
      · exact ih (n / 16) (by omega) h
      · exact ⟨n % 16, by omega, List.mem_singleton.mp h⟩

end

/-! ## The newer version of IP -/

/-- The eight pieces of an address, of 16 bits each. -/
structure IsPieces (ps : List Nat) : Prop where
  length : ps.length = 8
  small : ∀ n ∈ ps, n < 65536

section

variable {ps ns : List Nat} {s : List Char} {n : Nat}

theorem exists_of_mem_mapM {α β : Type} {f : α → Option β} {as : List α} {bs : List β}
    (h : as.mapM f = some bs) {b : β} (hb : b ∈ bs) : ∃ a ∈ as, f a = some b := by
  induction as generalizing bs with
  | nil =>
    cases h
    exact absurd hb List.not_mem_nil
  | cons a as ih =>
    rw [List.mapM_cons] at h
    obtain ⟨c, hc, h⟩ := Option.bind_eq_some_iff.mp h
    obtain ⟨cs, hcs, h⟩ := Option.bind_eq_some_iff.mp h
    cases h
    rcases List.mem_cons.mp hb with rfl | hb
    · exact ⟨a, List.mem_cons_self, hc⟩
    · obtain ⟨a', ha', hf⟩ := ih hcs hb
      exact ⟨a', List.mem_cons_of_mem a ha', hf⟩

theorem mapM_some {α β : Type} {f : α → Option β} {g : α → β} {as : List α}
    (h : ∀ a ∈ as, f a = some (g a)) : as.mapM f = some (as.map g) := by
  induction as with
  | nil => rfl
  | cons a as ih =>
    rw [List.mapM_cons, h a List.mem_cons_self, ih fun b hb => h b (List.mem_cons_of_mem a hb)]
    rfl

theorem map_snd_mapIdx {α : Type} (as : List α) : (as.mapIdx fun i a => (i, a)).map Prod.snd = as := by
  refine List.ext_getElem? fun i => ?_
  rw [List.getElem?_map, List.getElem?_mapIdx, Option.map_map]
  exact congrFun Option.map_id _

theorem lt_of_octet? (h : octet? s = some n) : n < 256 := by
  unfold octet? at h
  split at h
  · cases h
  · cases h
  · split at h
    · obtain ⟨m, -, h⟩ := Option.bind_eq_some_iff.mp h
      split at h
      · next hlt =>
        cases h
        exact hlt
      · cases h
    · cases h

theorem lt_of_groupPieces? {isLast : Bool} (h : groupPieces? isLast s = some ps) :
    ∀ n ∈ ps, n < 65536 := by
  unfold groupPieces? at h
  split at h
  · split at h
    · split at h
      · next a b c d hoctets =>
        cases h
        have hlt : ∀ n ∈ [a, b, c, d], n < 256 := by
          intro n hn
          obtain ⟨t, -, ht⟩ := exists_of_mem_mapM hoctets hn
          exact lt_of_octet? ht
        simp only [List.forall_mem_cons] at hlt
        intro n hn
        simp only [List.mem_cons, List.not_mem_nil, or_false] at hn
        omega
      · cases h
    · cases h
  · split at h
    · next hgroup =>
      obtain ⟨n, hn, rfl⟩ := Option.map_eq_some_iff.mp h
      intro m hm
      obtain rfl := List.mem_singleton.mp hm
      calc m < 16 ^ s.length := natIn?_lt hn
        _ ≤ 16 ^ 4 := Nat.pow_le_pow_right (by decide) hgroup.2
    · cases h

theorem lt_of_groups? {isEnd : Bool} (h : groups? isEnd s = some ps) : ∀ n ∈ ps, n < 65536 := by
  unfold groups? at h
  split at h
  · cases h
    exact nofun
  · obtain ⟨groups, hgroups, rfl⟩ := Option.map_eq_some_iff.mp h
    intro n hn
    obtain ⟨g, hg, hn⟩ := List.mem_flatten.mp hn
    obtain ⟨p, -, hp⟩ := exists_of_mem_mapM hgroups hg
    exact lt_of_groupPieces? hp n hn

theorem isPieces_of_ipv6? (h : ipv6? s = some ps) : IsPieces ps := by
  unfold ipv6? at h
  split at h
  · obtain ⟨ns, hns, h⟩ := Option.bind_eq_some_iff.mp h
    split at h
    · next hlength =>
      cases h
      exact ⟨hlength, lt_of_groups? hns⟩
    · cases h
  · obtain ⟨first, hfirst, h⟩ := Option.bind_eq_some_iff.mp h
    obtain ⟨last, hlast, h⟩ := Option.bind_eq_some_iff.mp h
    split at h
    · next hfew =>
      cases h
      refine ⟨?_, ?_⟩
      · simp only [List.length_append, List.length_replicate]
        omega
      · intro n hn
        rcases List.mem_append.mp hn with hn | hn
        · rcases List.mem_append.mp hn with hn | hn
          · exact lt_of_groups? hfirst n hn
          · rw [List.eq_of_mem_replicate hn]
            decide
        · exact lt_of_groups? hlast n hn
    · cases h

/-- The run that is left out of a text is within the pieces, and they are zeros. -/
theorem zeroRun_spec (ps : List Nat) : (zeroRun ps).1 + (zeroRun ps).2 ≤ ps.length ∧
    (ps.drop (zeroRun ps).1).take (zeroRun ps).2 = List.replicate (zeroRun ps).2 0 := by
  let IsRun (run : Nat × Nat) : Prop := run.1 + run.2 ≤ ps.length ∧
    (ps.drop run.1).take run.2 = List.replicate run.2 0
  have hruns : ∀ run ∈ (List.range ps.length).map (fun i =>
      (i, ((ps.drop i).takeWhile (· == 0)).length)), IsRun run := by
    intro run hrun
    obtain ⟨i, hi, rfl⟩ := List.mem_map.mp hrun
    have hprefix := List.takeWhile_prefix (l := ps.drop i) (· == 0)
    have hlength := hprefix.length_le
    rw [List.length_drop] at hlength
    refine ⟨?_, ?_⟩
    · have := List.mem_range.mp hi
      dsimp only
      omega
    · dsimp only
      rw [← List.prefix_iff_eq_take.mp hprefix]
      refine List.eq_replicate_of_mem fun n hn => ?_
      exact eq_of_beq (List.all_eq_true.mp List.all_takeWhile n hn)
  have hfold : ∀ (runs : List (Nat × Nat)) (best : Nat × Nat), (∀ run ∈ runs, IsRun run) →
      IsRun best → IsRun (runs.foldl (fun best run => if best.2 < run.2 then run else best) best) := by
    intro runs
    induction runs with
    | nil => exact fun best _ hbest => hbest
    | cons run runs ih =>
      intro best hall hbest
      rw [List.foldl_cons]
      refine ih _ (fun r hr => hall r (List.mem_cons_of_mem run hr)) ?_
      split
      · exact hall run List.mem_cons_self
      · exact hbest
  exact hfold _ (0, 0) hruns ⟨Nat.zero_le _, by simp⟩

/-! ### Groups -/

theorem hexText_ne_nil (n : Nat) : hexText n ≠ [] := by
  rw [hexText_eq]
  exact Nat.toDigits_ne_nil

theorem notMem_hexText {c : Char} (hc : ∀ d < 16, Nat.digitChar d ≠ c) (n : Nat) :
    c ∉ hexText n := by
  intro h
  obtain ⟨d, hd, rfl⟩ := exists_digit_of_mem_hexText h
  exact hc d hd rfl

theorem groupPieces?_hexText (h : n < 65536) (isLast : Bool) :
    groupPieces? isLast (hexText n) = some [n] := by
  have hdot : (hexText n).contains '.' = false := by
    rw [List.contains_eq_mem, decide_eq_false_iff_not]
    exact notMem_hexText (by decide) n
  have hlength : (hexText n).length ≤ 4 := by
    rw [hexText_eq]
    exact Nat.toDigits_length 16 n 4 (by decide) h
  unfold groupPieces?
  rw [if_neg (by rw [hdot]; decide), if_pos ⟨hexText_ne_nil n, hlength⟩, hexText_eq,
    natIn?_toDigits (by decide) (by decide)]
  rfl

/-- Joined groups are read as the pieces they were written for. -/
theorem groups?_joinWith (h : ∀ n ∈ ns, n < 65536) (isEnd : Bool) :
    groups? isEnd (Text.joinWith [':'] (ns.map hexText)) = some ns := by
  cases ns with
  | nil => rfl
  | cons n ns =>
    have hcolon : ∀ g ∈ (n :: ns).map hexText, ':' ∉ g := by
      intro g hg
      obtain ⟨m, -, rfl⟩ := List.mem_map.mp hg
      exact notMem_hexText (by decide) m
    have hcut : Text.cut ':' (Text.joinWith [':'] ((n :: ns).map hexText)) =
        (n :: ns).map hexText := Text.cut_joinWith hcolon (by simp)
    have hne : Text.joinWith [':'] ((n :: ns).map hexText) ≠ [] := by
      intro hnil
      rw [hnil] at hcut
      have hhead := congrArg List.head? hcut
      exact hexText_ne_nil n (Option.some.inj hhead).symm
    have hpieces : ∀ p ∈ ((n :: ns).map hexText).mapIdx fun i g => (i, g), ∀ isLast,
        groupPieces? isLast p.2 = some [(natIn? 16 p.2).getD 0] := by
      intro p hp isLast
      have hmem : p.2 ∈ (((n :: ns).map hexText).mapIdx fun i g => (i, g)).map Prod.snd :=
        List.mem_map_of_mem hp
      rw [map_snd_mapIdx] at hmem
      obtain ⟨m, hm, heq⟩ := List.mem_map.mp hmem
      rw [← heq, groupPieces?_hexText (h m hm), hexText_eq, natIn?_toDigits (by decide) (by decide)]
      rfl
    unfold groups?
    rw [if_neg hne, hcut]
    dsimp only
    rw [mapM_some fun p hp => hpieces p hp _, Option.map_some]
    have hvalues : (((n :: ns).map hexText).mapIdx fun i g => (i, g)).map
        (fun p => [(natIn? 16 p.2).getD 0]) = (n :: ns).map fun m => [m] := by
      rw [← Function.comp_def (fun g => [(natIn? 16 g).getD 0]) Prod.snd, ← List.map_map,
        map_snd_mapIdx, List.map_map]
      refine List.map_congr_left fun m _ => ?_
      rw [Function.comp_apply, hexText_eq, natIn?_toDigits (by decide) (by decide)]
      rfl
    rw [hvalues, ← List.flatMap_def, List.flatMap_singleton']

/-- There is no double colon in joined groups, and none begins in them. -/
theorem splitFirst?_joinWith {gs : List (List Char)} (h : ∀ g ∈ gs, g ≠ [] ∧ ':' ∉ g)
    (tail : List Char) : Text.splitFirst? [':', ':'] (Text.joinWith [':'] gs ++ tail) =
      (Text.splitFirst? [':', ':'] tail).map fun q => (Text.joinWith [':'] gs ++ q.1, q.2) := by
  fun_induction Text.joinWith [':'] gs with
  | case1 => simp
  | case2 g => exact Text.splitFirst?_append (h g List.mem_cons_self).2 tail
  | case3 g g' gs ih =>
    have htail := ih fun f hf => h f (List.mem_cons_of_mem g hf)
    -- what follows the colon is the first character of a group
    obtain ⟨c, r, hg'⟩ := List.exists_cons_of_ne_nil (h g' (by simp)).1
    have hc : ':' ≠ c := by
      rintro rfl
      exact (h g' (by simp)).2 (hg' ▸ List.mem_cons_self)
    obtain ⟨r', hr'⟩ : ∃ r', Text.joinWith [':'] (g' :: gs) ++ tail = c :: r' := by
      rw [hg']
      cases gs <;> exact ⟨_, rfl⟩
    have hstrip : Text.strip? [':', ':'] (':' :: (Text.joinWith [':'] (g' :: gs) ++ tail)) = none := by
      rw [hr']
      exact if_neg hc
    rw [List.append_assoc, List.append_assoc, Text.splitFirst?_append (h g List.mem_cons_self).2,
      List.singleton_append, Text.splitFirst?, hstrip]
    dsimp only
    rw [htail, Option.map_map, Option.map_map]
    refine congrArg (Option.map · _) (funext fun q => ?_)
    simp

theorem forall_isGroup (ns : List Nat) : ∀ g ∈ ns.map hexText, g ≠ [] ∧ ':' ∉ g := by
  intro g h
  obtain ⟨n, -, rfl⟩ := List.mem_map.mp h
  exact ⟨hexText_ne_nil n, notMem_hexText (by decide) n⟩

/-- The text of an address is read as the address. -/
theorem ipv6?_ipv6Text (h : IsPieces ps) : ipv6? (ipv6Text ps) = some ps := by
  obtain ⟨hle, hzeros⟩ := zeroRun_spec ps
  have hsmall : ∀ {ns : List Nat}, ns ⊆ ps → ∀ n ∈ ns, n < 65536 := fun hsub n hn =>
    h.small n (hsub hn)
  unfold ipv6Text
  rcases hrun : zeroRun ps with ⟨start, length⟩
  rw [hrun] at hle hzeros
  dsimp only at hle hzeros ⊢
  split
  · have hsplit := splitFirst?_joinWith (forall_isGroup ps) []
    rw [List.append_nil, show Text.splitFirst? [':', ':'] [] = none from rfl, Option.map_none] at hsplit
    unfold ipv6?
    rw [hsplit]
    dsimp only
    rw [groups?_joinWith h.small, Option.bind_some, if_pos h.length]
  · next hlong =>
    have hsplit := splitFirst?_joinWith (forall_isGroup (ps.take start))
      (':' :: ':' :: Text.joinWith [':'] ((ps.drop (start + length)).map hexText))
    rw [show ∀ r, Text.splitFirst? [':', ':'] (':' :: ':' :: r) = some ([], r) from fun r => rfl,
      Option.map_some, List.append_nil] at hsplit
    have htake : ((ps.take start).length) = start := by
      rw [List.length_take]
      omega
    have hdrop : ((ps.drop (start + length)).length) = 8 - (start + length) := by
      rw [List.length_drop, h.length]
    have hlength := h.length
    unfold ipv6?
    rw [List.append_assoc, show ∀ r : List Char, [':', ':'] ++ r = ':' :: ':' :: r from fun r => rfl,
      hsplit]
    dsimp only
    rw [groups?_joinWith (hsmall (List.take_subset _ _)), groups?_joinWith (hsmall (List.drop_subset _ _))]
    simp only [bind, pure, Option.bind_some]
    rw [if_pos (by omega), htake, hdrop, show 8 - start - (8 - (start + length)) = length by omega,
      ← hzeros]
    refine congrArg some ?_
    rw [List.append_assoc, ← List.drop_drop, List.take_append_drop, List.take_append_drop]

/-- A host in brackets is read as it is written. -/
theorem bracketed?_of_ok {host : String} (hs : bracketed? s = .ok host) :
    ∃ ps, IsPieces ps ∧ host.toList = '[' :: (ipv6Text ps ++ [']']) ∧
      bracketed? (ipv6Text ps ++ [']']) = .ok host := by
  unfold bracketed? at hs
  split at hs
  · split at hs
    · next ps hps =>
      have hpieces := isPieces_of_ipv6? hps
      cases hs
      refine ⟨ps, hpieces, String.toList_ofList, ?_⟩
      unfold bracketed?
      rw [List.getLast?_concat, List.dropLast_concat, ipv6?_ipv6Text hpieces]
      rfl
    · cases hs
  · cases hs

end

/-! ## The older version of IP -/

section

variable {n : Nat} {c : Char}

theorem isDigit_of_mem_decimal (h : c ∈ decimal n) : c.isDigit = true := Text.isDigit_of_mem_repr h

theorem decimal_eq (n : Nat) : decimal n = Nat.toDigits 10 n := Nat.toList_repr

theorem ipv4Part?_decimal (n : Nat) : ipv4Part? (decimal n) = some n := by
  rw [decimal_eq]
  rcases Nat.eq_zero_or_pos n with rfl | hpos
  · rfl
  · have hhead := Pointer.head?_toDigits_ne hpos
    have hread : natIn? 10 (Nat.toDigits 10 n) = some n := natIn?_toDigits (by decide) (by decide) n
    unfold ipv4Part?
    split
    · next hnil => exact absurd hnil Nat.toDigits_ne_nil
    · next heq =>
      rw [heq] at hhead
      exact absurd rfl hhead
    · exact hread

/-- The four parts of an address. -/
def ipv4Parts (n : Nat) : List (List Char) := [decimal (n / 16777216 % 256), decimal (n / 65536 % 256),
  decimal (n / 256 % 256), decimal (n % 256)]

theorem cut_ipv4Text (n : Nat) : Text.cut '.' (ipv4Text n) = ipv4Parts n := by
  refine Text.cut_joinWith (fun p hp hdot => ?_) (List.cons_ne_nil _ _)
  simp only [List.mem_cons, List.not_mem_nil, or_false] at hp
  rcases hp with rfl | rfl | rfl | rfl <;> exact absurd (isDigit_of_mem_decimal hdot) (by decide)

theorem mem_ipv4Text (h : c ∈ ipv4Text n) : c = '.' ∨ c.isDigit = true := by
  rcases Text.mem_joinWith h with h | ⟨p, hp, h⟩
  · exact .inl (List.mem_singleton.mp h)
  · simp only [List.mem_cons, List.not_mem_nil, or_false] at hp
    rcases hp with rfl | rfl | rfl | rfl <;> exact .inr (isDigit_of_mem_decimal h)

theorem endsInNumber_ipv4Text (n : Nat) : endsInNumber (ipv4Text n) = true := by
  have hne : decimal (n % 256) ≠ [] := by
    rw [decimal_eq]
    exact Nat.toDigits_ne_nil
  have hdigits : isDigits (decimal (n % 256)) = true :=
    List.all_eq_true.mpr fun c hc => isDigit_of_mem_decimal hc
  have hreverse : (ipv4Parts n).reverse = [decimal (n % 256), decimal (n / 256 % 256),
      decimal (n / 65536 % 256), decimal (n / 16777216 % 256)] := rfl
  unfold endsInNumber
  rw [cut_ipv4Text, hreverse]
  cases hlast : decimal (n % 256) with
  | nil => exact absurd hlast hne
  | cons d ds =>
    rw [hlast] at hdigits
    simp [hdigits]

theorem ipv4Value?_ipv4Text (n : Nat) : ipv4Value? (ipv4Text n) = some (n % 4294967296) := by
  have hne : decimal (n % 256) ≠ [] := by
    rw [decimal_eq]
    exact Nat.toDigits_ne_nil
  have hlast : (ipv4Parts n).getLast? ≠ some [] := fun h => hne (Option.some.inj h)
  have hread : (ipv4Parts n).mapM ipv4Part? =
      some [n / 16777216 % 256, n / 65536 % 256, n / 256 % 256, n % 256] := by
    unfold ipv4Parts
    simp only [List.mapM_cons, List.mapM_nil, ipv4Part?_decimal]
    rfl
  have hmod : ∀ k, k % 256 < 256 := fun k => Nat.mod_lt k (by decide)
  unfold ipv4Value?
  have hparts : (if 1 < (ipv4Parts n).length ∧ (ipv4Parts n).getLast? = some [] then
      (ipv4Parts n).dropLast else ipv4Parts n) = ipv4Parts n := if_neg fun h => hlast h.2
  have hfew : ¬ 4 < (ipv4Parts n).length := Nat.lt_irrefl 4
  rw [cut_ipv4Text]
  dsimp only
  rw [hparts, if_neg hfew, hread]
  simp only [bind, pure, Option.bind_some, List.getLast?_cons_cons, List.getLast?_singleton,
    List.dropLast_cons_cons, List.dropLast_singleton, List.length_cons, List.length_nil]
  rw [if_neg]
  · refine congrArg some ?_
    simp only [List.mapIdx_cons, List.mapIdx_nil, List.foldl_cons, List.foldl_nil, Nat.shiftLeft_eq]
    omega
  · rintro (h | h)
    · have := hmod n
      have hbound : 1 <<< (8 * (4 - (0 + 1 + 1 + 1))) = 256 := rfl
      omega
    · obtain ⟨k, hk, hlarge⟩ := List.any_eq_true.mp h
      have hlarge := of_decide_eq_true hlarge
      simp only [List.mem_cons, List.not_mem_nil, or_false] at hk
      have h₁ := hmod (n / 16777216)
      have h₂ := hmod (n / 65536)
      have h₃ := hmod (n / 256)
      omega

theorem ipv4Text_mod (n : Nat) : ipv4Text (n % 4294967296) = ipv4Text n := by
  unfold ipv4Text
  rw [show n % 4294967296 / 16777216 % 256 = n / 16777216 % 256 by omega,
    show n % 4294967296 / 65536 % 256 = n / 65536 % 256 by omega,
    show n % 4294967296 / 256 % 256 = n / 256 % 256 by omega,
    show n % 4294967296 % 256 = n % 256 by omega]

end

/-! ## Names -/

section

variable {P : Char → Prop} {s : List Char}

theorem forall_mem_punyDigits (hpuny : ∀ n < 36, P (puny n)) (bias fuel q k : Nat) :
    ∀ c ∈ punyDigits bias fuel q k, P c := by
  induction fuel generalizing q k with
  | zero => exact nofun
  | succ fuel ih =>
    unfold punyDigits
    dsimp only
    have ht : 1 ≤ (if k ≤ bias then 1 else if bias + 26 ≤ k then 26 else k - bias) ∧
        (if k ≤ bias then 1 else if bias + 26 ≤ k then 26 else k - bias) ≤ 26 := by
      repeat' split
      all_goals omega
    generalize (if k ≤ bias then 1 else if bias + 26 ≤ k then 26 else k - bias) = t at ht
    split
    · exact List.forall_mem_singleton.mpr (hpuny q (by omega))
    · refine List.forall_mem_cons.mpr ⟨hpuny _ ?_, ih _ _⟩
      have := Nat.mod_lt (q - t) (show 0 < 36 - t by omega)
      omega

theorem forall_mem_punyPoint (hpuny : ∀ n < 36, P (puny n)) {basic m : Nat} {st : PunyState}
    (s : List Char) (h : ∀ c ∈ st.out, P c) : ∀ c ∈ (punyPoint basic m st s).out, P c := by
  unfold punyPoint
  dsimp only
  generalize hst : ({ st with n := m, delta := st.delta + (m - st.n) * (st.handled + 1) } : PunyState)
    = st'
  have hout : ∀ c ∈ st'.out, P c := by
    rw [← hst]
    exact h
  clear hst
  induction s generalizing st' with
  | nil => exact hout
  | cons c s ih =>
    rw [List.foldl_cons]
    apply ih
    split
    · exact hout
    · split
      · exact List.forall_mem_append.mpr ⟨hout, forall_mem_punyDigits hpuny _ _ _ _⟩
      · exact hout

/-- The ASCII form of a label has its characters in ASCII, hyphens, letters and digits. -/
theorem forall_mem_punycode (hpuny : ∀ n < 36, P (puny n)) (hhyphen : P '-')
    (h : ∀ c ∈ s, c.toNat < 0x80 → P c) : ∀ c ∈ punycode s, P c := by
  unfold punycode
  dsimp only
  have hbasic : ∀ c ∈ s.filter fun c => decide (c.toNat < 0x80), P c := by
    intro c hc
    obtain ⟨hmem, hascii⟩ := List.mem_filter.mp hc
    exact h c hmem (of_decide_eq_true hascii)
  generalize s.filter (fun c => decide (c.toNat < 0x80)) = basic at hbasic
  have hstart : ∀ c ∈ (if basic = [] then [] else basic ++ ['-']), P c := by
    split
    · exact nofun
    · exact List.forall_mem_append.mpr ⟨hbasic, List.forall_mem_singleton.mpr hhyphen⟩
  generalize hst : (⟨0x80, 0, 72, basic.length, if basic = [] then [] else basic ++ ['-']⟩ : PunyState)
    = st
  have hout : ∀ c ∈ st.out, P c := by
    rw [← hst]
    exact hstart
  clear hst
  generalize (((s.filter fun c => decide (0x80 ≤ c.toNat)).map Char.toNat).eraseDups.mergeSort) = ms
  induction ms generalizing st with
  | nil => exact hout
  | cons m ms ih =>
    rw [List.foldl_cons]
    exact ih _ (forall_mem_punyPoint hpuny s hout)

theorem toLower_toLower (c : Char) : c.toLower.toLower = c.toLower := by
  by_cases hascii : c.toNat < 0x80
  · exact Reference.of_ascii (P := fun c => c.toLower.toLower = c.toLower) (by decide +kernel) hascii
  · have hself : c.toLower = c := by
      delta Char.toLower
      rw [dif_neg]
      rintro ⟨-, hhigh⟩
      have : c.toNat ≤ 90 := UInt32.le_iff_toNat_le.mp hhigh
      omega
    rw [hself, hself]

/-- Small letters in ASCII and what else a name may hold. -/
def IsName (s : List Char) : Prop := ∀ c ∈ s, c.toNat < 0x80 ∧ c.toLower = c ∧ inName c = false

theorem isName_asciiLabel (h : ∀ c ∈ s, c.toLower = c ∧ inName c = false) : IsName (asciiLabel s) := by
  unfold asciiLabel
  split
  · next hascii =>
    intro c hc
    exact ⟨of_decide_eq_true (List.all_eq_true.mp hascii c hc), h c hc⟩
  · refine List.forall_mem_append.mpr ⟨?_, ?_⟩
    · exact Text.forall_mem_of_all (P := fun c => c.toNat < 0x80 ∧ c.toLower = c ∧ inName c = false)
        (by decide)
    · exact forall_mem_punycode
        (P := fun c => c.toNat < 0x80 ∧ c.toLower = c ∧ inName c = false) (by decide) (by decide)
        fun c hc hascii => ⟨hascii, h c hc⟩

theorem isName_join (h : ∀ c ∈ s, c.toLower = c ∧ inName c = false) :
    IsName (Text.joinWith ['.'] ((Text.cut '.' s).map asciiLabel)) := by
  intro c hc
  rcases Text.mem_joinWith hc with hc | ⟨p, hp, hc⟩
  · rw [List.mem_singleton.mp hc]
    decide
  · obtain ⟨label, hlabel, rfl⟩ := List.mem_map.mp hp
    exact isName_asciiLabel (fun d hd => h d (Text.mem_of_mem_cut hlabel hd)) c hc

theorem isName_ipv4Text (n : Nat) : IsName (ipv4Text n) := by
  intro c hc
  rcases mem_ipv4Text hc with rfl | hdigit
  · decide
  · have hascii : c.toNat < 0x80 := by
      have := Pointer.toNat_of_isDigit hdigit
      omega
    exact Reference.of_ascii (P := fun c => c.isDigit = true →
      c.toNat < 0x80 ∧ c.toLower = c ∧ inName c = false) (by decide +kernel) hascii hdigit

theorem decode?_of_notMem (h : '%' ∉ s) (hascii : ∀ c ∈ s, c.toNat < 0x80) :
    Percent.decode? s = some s := by
  have hdecode := Percent.decode?_encode h fun _ => false
  rwa [Url.encode_of_forall fun c hc => ⟨rfl, hascii c hc⟩] at hdecode

/-- A name is read as an address of the older version, or as it stands. -/
theorem name?_of_isName (h : IsName s) (hne : s ≠ []) : name? s =
    if endsInNumber s then
      match ipv4Value? s with
      | some n => .ok (String.ofList (ipv4Text n))
      | none => .error .badIpv4
    else .ok (String.ofList s) := by
  have hmark : ∀ {c}, inName c = true → c ∉ s := by
    intro c hc hmem
    rw [(h c hmem).2.2] at hc
    cases hc
  have hdecode : Percent.decode? s = some s :=
    decode?_of_notMem (hmark (by decide)) fun c hc => (h c hc).1
  have hlower : lower s = s := by
    unfold lower
    rw [List.map_congr_left fun c hc => (h c hc).2.1, List.map_id']
  have hany : s.any inName = false := by
    rw [List.any_eq_false]
    intro c hc
    rw [(h c hc).2.2]
    decide
  have hlabels : (Text.cut '.' s).map asciiLabel = Text.cut '.' s := by
    refine (List.map_congr_left fun label hlabel => ?_).trans (List.map_id' _)
    exact if_pos (List.all_eq_true.mpr fun c hc =>
      decide_eq_true (h c (Text.mem_of_mem_cut hlabel hc)).1)
  unfold name?
  split
  · exact absurd List.mem_cons_self (hmark (by decide))
  · rw [hdecode]
    dsimp only
    rw [hlower, hany, hlabels, Text.joinWith_cut, if_neg Bool.false_ne_true]
    exact if_neg hne

end

/-! ## What stands in an address -/

section

variable {s : List Char} {host : String}

/-- The texts of hosts: brackets around digits and colons, or nothing that marks an end. -/
def IsText (s : List Char) : Prop :=
  (∃ body, s = '[' :: (body ++ [']']) ∧ ∀ c ∈ body, c = ':' ∨ ∃ d < 16, c = Nat.digitChar d) ∨
    ∀ c ∈ s, inPlainHost c = false ∧ 0x20 < c.toNat ∧ c.toNat < 0x80

theorem isText_of_isName (h : IsName s) : IsText s := by
  refine .inr fun c hc => ?_
  obtain ⟨hascii, -, hname⟩ := h c hc
  exact Reference.of_ascii (P := fun c => inName c = false →
    inPlainHost c = false ∧ 0x20 < c.toNat ∧ c.toNat < 0x80) (by decide +kernel) hascii hname

theorem isText_of_pieces (ps : List Nat) : IsText ('[' :: (ipv6Text ps ++ [']'])) := by
  have hjoin : ∀ ns : List Nat, ∀ c ∈ Text.joinWith [':'] (ns.map hexText),
      c = ':' ∨ ∃ d < 16, c = Nat.digitChar d := by
    intro ns c hc
    rcases Text.mem_joinWith hc with hc | ⟨g, hg, hc⟩
    · exact .inl (List.mem_singleton.mp hc)
    · obtain ⟨n, -, rfl⟩ := List.mem_map.mp hg
      exact .inr (exists_digit_of_mem_hexText hc)
  refine .inl ⟨_, rfl, ?_⟩
  unfold ipv6Text
  dsimp only
  split
  · exact hjoin ps
  · intro c hc
    rcases List.mem_append.mp hc with hc | hc
    · rcases List.mem_append.mp hc with hc | hc
      · exact hjoin _ c hc
      · simp only [List.mem_cons, List.not_mem_nil, or_false, or_self] at hc
        exact .inl hc
    · exact hjoin _ c hc

theorem IsText.notMem {c : Char} (h : IsText s) (hc : c ≠ '[' ∧ c ≠ ']' ∧ c ≠ ':')
    (hdigit : ∀ d < 16, Nat.digitChar d ≠ c) (hplain : inPlainHost c = true) : c ∉ s := by
  intro hmem
  rcases h with ⟨body, rfl, hbody⟩ | h
  · rcases List.mem_cons.mp hmem with heq | hmem
    · exact hc.1 heq
    · rcases List.mem_append.mp hmem with hmem | hmem
      · rcases hbody c hmem with heq | ⟨d, hd, rfl⟩
        · exact hc.2.2 heq
        · exact hdigit d hd rfl
      · exact hc.2.1 (List.mem_singleton.mp hmem)
  · rw [(h c hmem).1] at hplain
    cases hplain

theorem IsText.slash_notMem (h : IsText s) : '/' ∉ s :=
  h.notMem (by decide) (by decide) (by decide)

/-- The normal form of a host with a name is read as itself. -/
theorem name?_toList (h : name? s = .ok host) :
    name? host.toList = .ok host ∧ IsText host.toList ∧ host ≠ "" := by
  unfold name? at h
  split at h
  · next r =>
    obtain ⟨ps, -, hlist, hread⟩ := bracketed?_of_ok h
    rw [hlist]
    refine ⟨hread, isText_of_pieces ps, ?_⟩
    rintro rfl
    cases hlist
  · split at h
    · cases h
    · next name _ =>
      dsimp only at h
      split at h
      · cases h
      · next hany =>
        have hlower : ∀ c ∈ lower name, c.toLower = c ∧ inName c = false := by
          intro c hc
          refine ⟨?_, ?_⟩
          · obtain ⟨d, -, rfl⟩ := List.mem_map.mp hc
            exact toLower_toLower d
          · exact Bool.eq_false_iff.mpr fun hin => hany (List.any_eq_true.mpr ⟨c, hc, hin⟩)
        have hname := isName_join hlower
        generalize Text.joinWith ['.'] ((Text.cut '.' (lower name)).map asciiLabel) = t at h hname
        split at h
        · cases h
        · next hne =>
          split at h
          · split at h
            · next n _ =>
              cases h
              have htext : ipv4Text n ≠ [] := by
                intro hnil
                have hcut := cut_ipv4Text n
                rw [hnil] at hcut
                exact absurd (congrArg List.length hcut) (by simp [Text.cut, ipv4Parts])
              rw [String.toList_ofList]
              refine ⟨?_, isText_of_isName (isName_ipv4Text n), ?_⟩
              · rw [name?_of_isName (isName_ipv4Text n) htext, endsInNumber_ipv4Text,
                  ipv4Value?_ipv4Text, if_pos rfl]
                dsimp only
                rw [ipv4Text_mod]
              · intro heq
                rw [← String.toList_inj, String.toList_ofList] at heq
                exact htext heq
            · cases h
          · next hnumber =>
            cases h
            rw [String.toList_ofList]
            refine ⟨?_, isText_of_isName hname, ?_⟩
            · rw [name?_of_isName hname hne, if_neg hnumber]
            · intro heq
              rw [← String.toList_inj, String.toList_ofList] at heq
              exact hne heq

/-- The host of a scheme without rules of its own is read as itself. -/
theorem plain?_toList (h : plain? s = .ok host) :
    plain? host.toList = .ok host ∧ IsText host.toList := by
  unfold plain? at h
  split at h
  · obtain ⟨ps, -, hlist, hread⟩ := bracketed?_of_ok h
    rw [hlist]
    exact ⟨hread, isText_of_pieces ps⟩
  · split at h
    · cases h
    · next hany =>
      cases h
      rw [String.toList_ofList]
      have hcoded : Percent.Coded Percent.isControl (Percent.encode Percent.isControl s) :=
        Percent.coded_encode_self (Text.forall_mem_of_all (by decide)) s
      have hplain : ∀ c ∈ Percent.encode Percent.isControl s, inPlainHost c = false := by
        intro c hc
        rcases Percent.mem_encode hc with ⟨hmem, -⟩ | rfl | ⟨n, hn, rfl⟩
        · exact Bool.eq_false_iff.mpr fun hin => hany (List.any_eq_true.mpr ⟨c, hmem, hin⟩)
        · decide
        · have hhex : ∀ n < 16, inPlainHost (Percent.upperHex n) = false := by decide
          exact hhex n hn
      refine ⟨?_, .inr fun c hc => ?_⟩
      · unfold plain?
        split
        · next heq =>
          have hbracket := hplain '[' (heq ▸ List.mem_cons_self)
          exact absurd hbracket (by decide)
        · rw [hcoded.encode_eq, if_neg]
          rw [Bool.not_eq_true, List.any_eq_false]
          intro c hc
          rw [hplain c hc]
          decide
      · obtain ⟨hcontrol, hascii⟩ := hcoded c hc
        exact Reference.of_ascii (P := fun c => inPlainHost c = false → Percent.isControl c = false →
          inPlainHost c = false ∧ 0x20 < c.toNat ∧ c.toNat < 0x80) (by decide +kernel) hascii
          (hplain c hc) hcontrol

end

end Host

end RecordCheck
