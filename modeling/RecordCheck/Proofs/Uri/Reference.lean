import RecordCheck.Proofs.Text.Pieces
import RecordCheck.Uri.Reference

/-!
# References with a fragment

Reading stops at a number sign wherever it stands, so a reference with a fragment is read like the
text in front of the sign (`parse_before_iff`), and `isSpelled` says which texts can stand behind it.
-/

namespace RecordCheck.Reference

set_option autoImplicit false

/-- Characters of fragments and encoded bytes, nothing else. -/
def isSpelled : List Char → Bool
  | '%' :: h :: l :: r => isHex h && isHex l && isSpelled r
  | c :: r => c != '%' && inQuery c && isSpelled r
  | [] => true

/-- The text with a fragment behind it. -/
def Rest.before (r : Rest) (F : List Char) : Rest := ⟨r.index, r.chars ++ '#' :: F⟩

variable {allowed : Char → Bool} {r r' : Rest} {cs t F : List Char} {index : Nat}

/-! ## Characters -/

theorem takeChars_plain {c : Char} (hc : c ≠ '%') (cs : List Char) :
    takeChars allowed index (c :: cs) = if allowed c then
      (takeChars allowed (index + 1) cs).map fun p => (c :: p.1, p.2)
    else .ok ([], ⟨index, c :: cs⟩) := by
  rw [takeChars.eq_def]
  split
  · next h => cases h
  · next h =>
    cases h
    exact absurd rfl hc
  · next h =>
    cases h
    rw [if_neg hc]
    cases takeChars allowed (index + 1) cs <;> rfl

theorem takeChars_percent (h l : Char) (cs : List Char) :
    takeChars allowed index ('%' :: h :: l :: cs) = if isHex h && isHex l then
      (takeChars allowed (index + 3) cs).map fun p => ('%' :: h :: l :: p.1, p.2)
    else .error (.badPercent index) := by
  rw [takeChars]
  cases takeChars allowed (index + 3) cs <;> rfl

theorem takeChars_short (h : cs.length < 2) :
    takeChars allowed index ('%' :: cs) = .error (.badPercent index) := by
  rw [takeChars.eq_def]
  split
  · next heq => cases heq
  · next heq =>
    cases heq
    exact absurd h (by simp)
  · next heq =>
    cases heq
    rfl

/-- Encoded bytes are passed as one, all other characters singly. -/
theorem percentInduction {P : List Char → Prop} (nil : P [])
    (short : ∀ cs, cs.length < 2 → P ('%' :: cs))
    (percent : ∀ h l cs, P cs → P ('%' :: h :: l :: cs))
    (plain : ∀ c cs, c ≠ '%' → P cs → P (c :: cs)) (cs : List Char) : P cs := by
  induction hn : cs.length using Nat.strongRecOn generalizing cs with
  | ind n ih =>
    subst hn
    match cs with
    | [] => exact nil
    | c :: cs =>
      by_cases hc : c = '%'
      · subst hc
        match cs with
        | [] => exact short [] (by decide)
        | [h] => exact short [h] (Nat.lt_succ_self 1)
        | h :: l :: cs => exact percent h l cs (ih _ (by simp; omega) _ rfl)
      · exact plain c cs hc (ih _ (by simp) _ rfl)

theorem takeChars_before (hallowed : allowed '#' = false) (index : Nat) (cs : List Char) :
    takeChars allowed index (cs ++ '#' :: F) =
      (takeChars allowed index cs).map fun p => (p.1, p.2.before F) := by
  induction cs using percentInduction generalizing index with
  | nil =>
    rw [List.nil_append, takeChars_plain (by decide), hallowed]
    rfl
  | short cs hlen =>
    rw [takeChars_short hlen]
    match cs with
    | [] =>
      match F with
      | [] => exact takeChars_short (by decide)
      | f :: F => exact takeChars_percent '#' f F
    | [h] =>
      refine (takeChars_percent h '#' F).trans (if_neg ?_)
      rw [show isHex '#' = false from rfl, Bool.and_false]
      decide
  | percent h l cs ih =>
    rw [List.cons_append, List.cons_append, List.cons_append, takeChars_percent, takeChars_percent,
      ih]
    split
    · cases takeChars allowed (index + 3) cs <;> rfl
    · rfl
  | plain c cs hc ih =>
    rw [List.cons_append, takeChars_plain hc, takeChars_plain hc, ih]
    split
    · cases takeChars allowed (index + 1) cs <;> rfl
    · rfl

theorem isSpelled_percent (h l : Char) (cs : List Char) :
    isSpelled ('%' :: h :: l :: cs) = (isHex h && isHex l && isSpelled cs) := rfl

theorem isSpelled_plain {c : Char} (hc : c ≠ '%') (cs : List Char) :
    isSpelled (c :: cs) = (inQuery c && isSpelled cs) := by
  rw [isSpelled.eq_def]
  split
  · next h =>
    cases h
    exact absurd rfl hc
  · next h =>
    cases h
    rw [bne_iff_ne.mpr hc, Bool.true_and]
  · next h => cases h

theorem isSpelled_short (h : cs.length < 2) : isSpelled ('%' :: cs) = false := by
  match cs with
  | [] => rfl
  | [_] => rfl

theorem takeChars_of_isSpelled (h : isSpelled cs = true) :
    ∃ i, takeChars inQuery index cs = .ok (cs, ⟨i, []⟩) := by
  induction cs using percentInduction generalizing index with
  | nil => exact ⟨index, rfl⟩
  | short cs hlen =>
    rw [isSpelled_short hlen] at h
    cases h
  | percent h' l cs ih =>
    rw [isSpelled_percent, Bool.and_eq_true] at h
    obtain ⟨i, hi⟩ := ih h.2
    refine ⟨i, ?_⟩
    rw [takeChars_percent, if_pos h.1, hi]
    rfl
  | plain c cs hc ih =>
    rw [isSpelled_plain hc, Bool.and_eq_true] at h
    obtain ⟨i, hi⟩ := ih h.2
    refine ⟨i, ?_⟩
    rw [takeChars_plain hc, if_pos h.1, hi]
    rfl

/-- A text that is taken as a whole is spelled. -/
theorem isSpelled_of_takeChars (h : takeChars inQuery index cs = .ok (t, r)) (hr : r.chars = []) :
    isSpelled cs = true ∧ t = cs := by
  induction cs using percentInduction generalizing index t r with
  | nil =>
    cases h
    exact ⟨rfl, rfl⟩
  | short cs hlen =>
    rw [takeChars_short hlen] at h
    cases h
  | percent h' l cs ih =>
    rw [takeChars_percent] at h
    split at h
    · next hhex =>
      cases hcs : takeChars inQuery (index + 3) cs with
      | error => rw [hcs] at h; cases h
      | ok p =>
        rw [hcs] at h
        cases h
        obtain ⟨hspelled, hp⟩ := ih hcs hr
        rw [isSpelled_percent, hhex, hspelled, hp]
        exact ⟨rfl, rfl⟩
    · cases h
  | plain c cs hc ih =>
    rw [takeChars_plain hc] at h
    split at h
    · next hallowed =>
      cases hcs : takeChars inQuery (index + 1) cs with
      | error => rw [hcs] at h; cases h
      | ok p =>
        rw [hcs] at h
        cases h
        obtain ⟨hspelled, hp⟩ := ih hcs hr
        rw [isSpelled_plain hc, hallowed, hspelled, hp]
        exact ⟨rfl, rfl⟩
    · cases h
      cases hr

/-! ## The stages of reading -/

/-- What a stage of reading takes and leaves does not depend on a fragment behind the text. -/
def Stops (stage : Rest → Except ReferenceFault (List Char × Rest)) : Prop :=
  ∀ (r : Rest) (F : List Char), stage (r.before F) = (stage r).map fun p => (p.1, p.2.before F)

theorem chars_before_cons (i : Nat) (c : Char) (cs : List Char) :
    (Rest.before ⟨i, c :: cs⟩ F).chars = c :: (cs ++ '#' :: F) := rfl

theorem skip_before_cons (i : Nat) (c : Char) (cs : List Char) :
    (Rest.before ⟨i, c :: cs⟩ F).skip = (Rest.skip ⟨i, c :: cs⟩).before F := rfl

theorem stops_take (hallowed : allowed '#' = false) : Stops (take allowed) :=
  fun r _ => takeChars_before hallowed r.index r.chars

theorem takeWhile_before (hallowed : allowed '#' = false) (cs : List Char) :
    (cs ++ '#' :: F).takeWhile allowed = cs.takeWhile allowed := by
  induction cs with
  | nil => rw [List.nil_append, List.takeWhile_cons, hallowed]; rfl
  | cons c cs ih => rw [List.cons_append, List.takeWhile_cons, List.takeWhile_cons, ih]

theorem takePlain_before (hallowed : allowed '#' = false) (r : Rest) :
    takePlain allowed (r.before F) = ((takePlain allowed r).1, (takePlain allowed r).2.before F) := by
  unfold takePlain Rest.before
  dsimp only
  rw [takeWhile_before hallowed, List.drop_append_of_le_length]
  exact (List.takeWhile_sublist allowed).length_le

/-- The end of a bracketed host. -/
def closing (t : List Char) (r : Rest) : Except ReferenceFault (List Char × Rest) :=
  match r.chars with
  | ']' :: _ => .ok ('[' :: (t ++ [']']), r.skip)
  | _ => .error (.badCharacter r.index)

theorem stops_closing (t : List Char) : Stops (closing t) := by
  rintro ⟨index, cs⟩ F
  unfold closing
  match cs with
  | [] => rfl
  | c :: cs =>
    by_cases hc : c = ']'
    · subst hc
      rfl
    · simp [chars_before_cons, hc]
      rfl

theorem stops_bracketed : Stops bracketed := by
  intro r F
  unfold bracketed
  rw [takePlain_before rfl r]
  generalize takePlain (fun c => isHex c || c == ':' || c == '.') r = p
  obtain ⟨taken, rest⟩ := p
  dsimp only
  split
  · exact stops_closing taken rest F
  · split
    · rfl
    · obtain ⟨index, cs⟩ := r
      cases cs with
      | nil => rfl
      | cons v cs =>
        simp only [chars_before_cons, skip_before_cons,
          takePlain_before (show isHex '#' = false from rfl)]
        split
        · generalize takePlain isHex (Rest.skip ⟨index, v :: cs⟩) = q
          obtain ⟨digits, ⟨i, ds⟩⟩ := q
          match ds with
          | [] => rfl
          | d :: ds =>
            by_cases hd : d = '.'
            · subst hd
              simp only [chars_before_cons, skip_before_cons,
                takePlain_before (show inUserinfo '#' = false from rfl)]
              generalize takePlain inUserinfo (Rest.skip ⟨i, '.' :: ds⟩) = q
              obtain ⟨tail, rest'⟩ := q
              dsimp only
              split
              · rfl
              · exact stops_closing (v :: (digits ++ '.' :: tail)) rest' F
            · simp [chars_before_cons, hd]
              rfl
        · rfl

theorem stops_bind {first : Rest → Except ReferenceFault (List Char × Rest)}
    {next : List Char × Rest → Except ReferenceFault (List Char × Rest)} (hfirst : Stops first)
    (hnext : ∀ t, Stops fun r => next (t, r)) : Stops fun r => first r >>= next := by
  intro r F
  show first (r.before F) >>= next = (first r >>= next).map _
  rw [hfirst r F]
  cases first r with
  | error => rfl
  | ok p => exact hnext p.1 p.2 F

/-- A host without its port. -/
def host (r : Rest) : Except ReferenceFault (List Char × Rest) :=
  match r.chars with
  | '[' :: _ => bracketed r.skip
  | _ => take inName r

theorem stops_host : Stops host := by
  rintro ⟨index, cs⟩ F
  have hname : Stops (take inName) := stops_take rfl
  match cs with
  | [] => exact hname ⟨index, []⟩ F
  | c :: cs =>
    by_cases hc : c = '['
    · subst hc
      exact stops_bracketed (Rest.skip ⟨index, '[' :: cs⟩) F
    · have hplain := hname ⟨index, c :: cs⟩ F
      unfold host
      simp only [chars_before_cons]
      split
      · next heq => exact absurd (List.cons.inj heq).1 hc
      · split
        · next heq => exact absurd (List.cons.inj heq).1 hc
        · exact hplain

/-- The port behind a host. -/
def port (p : List Char × Rest) : Except ReferenceFault (List Char × Rest) :=
  match p.2.chars with
  | ':' :: _ => .ok (p.1 ++ ':' :: (takePlain Char.isDigit p.2.skip).1,
      (takePlain Char.isDigit p.2.skip).2)
  | _ => .ok p

theorem stops_port (t : List Char) : Stops fun r => port (t, r) := by
  rintro ⟨index, cs⟩ F
  unfold port
  match cs with
  | [] => rfl
  | c :: cs =>
    by_cases hc : c = ':'
    · subst hc
      simp only [chars_before_cons, skip_before_cons,
        takePlain_before (show Char.isDigit '#' = false from rfl)]
      rfl
    · simp [chars_before_cons, hc]
      rfl

theorem hostPort_eq : hostPort = fun r => host r >>= port := by
  funext r
  obtain ⟨index, cs⟩ := r
  cases cs with
  | nil => rfl
  | cons c cs =>
    by_cases hc : c = '['
    · subst hc
      rfl
    · have hname : host ⟨index, c :: cs⟩ = take inName ⟨index, c :: cs⟩ := by
        unfold host
        split
        · next heq => exact absurd (List.cons.inj heq).1 hc
        · rfl
      have hboth : hostPort ⟨index, c :: cs⟩ = take inName ⟨index, c :: cs⟩ >>= port := by
        unfold hostPort
        dsimp only
        split
        · next heq => exact absurd (List.cons.inj heq).1 hc
        · rfl
      rw [hboth, hname]

theorem stops_hostPort : Stops hostPort := by
  rw [hostPort_eq]
  exact stops_bind stops_host stops_port

/-- What was taken for credentials is a host with a port. -/
def plainAuthority (index : Nat) (p : List Char × Rest) :
    Except ReferenceFault (List Char × Rest) :=
  match Text.splitLast? [':'] p.1 with
  | none => .ok p
  | some (before, port) =>
    if before.contains ':' then .error (.badCharacter (index + before.length))
    else
      match badPort? (index + before.length + 1) port with
      | some i => .error (.badCharacter i)
      | none => .ok p

theorem plainAuthority_before (index : Nat) (t : List Char) (r : Rest) :
    plainAuthority index (t, r.before F) =
      (plainAuthority index (t, r)).map fun p => (p.1, p.2.before F) := by
  unfold plainAuthority
  dsimp only
  cases Text.splitLast? [':'] t with
  | none => rfl
  | some q =>
    dsimp only
    split
    · rfl
    · cases badPort? (index + q.1.length + 1) q.2 <;> rfl

/-- An authority without credentials. -/
def withoutUserinfo (r : Rest) (p : List Char × Rest) : Except ReferenceFault (List Char × Rest) :=
  if p.1 = [] then
    match r.chars with
    | '[' :: _ => hostPort r
    | _ => .ok ([], p.2)
  else plainAuthority r.index p

theorem withoutUserinfo_before (r : Rest) (t : List Char) (rest : Rest) :
    withoutUserinfo (r.before F) (t, rest.before F) =
      (withoutUserinfo r (t, rest)).map fun p => (p.1, p.2.before F) := by
  unfold withoutUserinfo
  dsimp only
  split
  · obtain ⟨index, cs⟩ := r
    match cs with
    | [] => rfl
    | c :: cs =>
      by_cases hc : c = '['
      · subst hc
        exact stops_hostPort ⟨index, '[' :: cs⟩ F
      · simp [chars_before_cons, hc]
        rfl
  · exact plainAuthority_before r.index t rest

/-- What stands behind the credentials, or in their place. -/
def behindUserinfo (r : Rest) (p : List Char × Rest) : Except ReferenceFault (List Char × Rest) :=
  match p.2.chars with
  | '@' :: _ => (hostPort p.2.skip).map fun q => (p.1 ++ '@' :: q.1, q.2)
  | _ => withoutUserinfo r p

theorem behindUserinfo_of_ne {p : List Char × Rest} (h : p.2.chars.head? ≠ some '@') :
    behindUserinfo r p = withoutUserinfo r p := by
  unfold behindUserinfo
  split
  · next heq =>
    rw [heq] at h
    exact absurd rfl h
  · rfl

theorem readAuthority_eq (r : Rest) : readAuthority r = take inUserinfo r >>= behindUserinfo r := by
  unfold readAuthority
  refine congrArg (take inUserinfo r >>= ·) (funext fun p => ?_)
  obtain ⟨taken, rest⟩ := p
  dsimp only
  split
  · next heq =>
    unfold behindUserinfo
    dsimp only
    rw [heq]
    cases hostPort rest.skip <;> rfl
  · next hne =>
    rw [behindUserinfo_of_ne]
    · rfl
    · intro hhead
      obtain ⟨ds, hds⟩ := List.head?_eq_some_iff.mp hhead
      exact hne ds hds

theorem behindUserinfo_before (r : Rest) (t : List Char) (rest : Rest) :
    behindUserinfo (r.before F) (t, rest.before F) =
      (behindUserinfo r (t, rest)).map fun p => (p.1, p.2.before F) := by
  obtain ⟨i, ds⟩ := rest
  by_cases hhead : ds.head? = some '@'
  · obtain ⟨ds, rfl⟩ := List.head?_eq_some_iff.mp hhead
    unfold behindUserinfo
    simp only [chars_before_cons, skip_before_cons, stops_hostPort (Rest.skip ⟨i, '@' :: ds⟩) F]
    cases hostPort (Rest.skip ⟨i, '@' :: ds⟩) <;> rfl
  · have hbefore : (Rest.before ⟨i, ds⟩ F).chars.head? ≠ some '@' := by
      cases ds with
      | nil => exact nofun
      | cons d ds => exact hhead
    rw [behindUserinfo_of_ne hbefore, behindUserinfo_of_ne hhead]
    exact withoutUserinfo_before r t ⟨i, ds⟩

theorem stops_readAuthority : Stops readAuthority := by
  intro r F
  have huserinfo : Stops (take inUserinfo) := stops_take rfl
  rw [readAuthority_eq, readAuthority_eq, huserinfo r F]
  cases take inUserinfo r with
  | error => rfl
  | ok p => exact behindUserinfo_before r p.1 p.2

/-! ## Whole references -/

/-- The second text is read as the first with this fragment behind it. -/
def Extends (F : List Char) (x y : Except ReferenceFault Reference) : Prop :=
  ∀ q, y = .ok q ↔ ∃ q₀, x = .ok q₀ ∧ q₀.fragment = none ∧ isSpelled F = true ∧
    q = { q₀ with fragment := some (String.ofList F) }

theorem extends_error (F : List Char) (f g : ReferenceFault) : Extends F (.error f) (.error g) := by
  intro q
  constructor
  · exact nofun
  · rintro ⟨_, h, -⟩
    cases h

theorem Extends.bind {stage : Rest → Except ReferenceFault (List Char × Rest)} (hstage : Stops stage)
    {next : List Char × Rest → Except ReferenceFault Reference}
    (hnext : ∀ t r, Extends F (next (t, r)) (next (t, r.before F))) (r : Rest) :
    Extends F (stage r >>= next) (stage (r.before F) >>= next) := by
  rw [hstage r F]
  cases stage r with
  | error f => exact extends_error F f f
  | ok p => exact hnext p.1 p.2

theorem strip?_before {word : List Char} (hword : '#' ∉ word) (cs : List Char) :
    Text.strip? word (cs ++ '#' :: F) = (Text.strip? word cs).map (· ++ '#' :: F) := by
  induction word generalizing cs with
  | nil => rfl
  | cons w word ih =>
    rw [List.mem_cons, not_or] at hword
    cases cs with
    | nil =>
      show (if w = '#' then _ else none) = none
      rw [if_neg (Ne.symm hword.1)]
    | cons c cs =>
      rw [List.cons_append, Text.strip?, Text.strip?, ih hword.2]
      split <;> rfl

theorem after?_before {word : List Char} (hword : '#' ∉ word) (r : Rest) :
    (r.before F).after? word = (r.after? word).map (·.before F) := by
  unfold Rest.after?
  rw [show (r.before F).chars = r.chars ++ '#' :: F from rfl, strip?_before hword]
  cases Text.strip? word r.chars <;> rfl

/-- Reads a fragment; nothing else may follow. -/
def ending (scheme auth : Option String) (path : List Char) (query : Option String) (r : Rest) :
    Except ReferenceFault Reference := do
  let (fragment, r) ← match r.after? ['#'] with
    | some r => do
      let (taken, r) ← take inQuery r
      pure (some (String.ofList taken), r)
    | none => pure (none, r)
  if r.chars = [] then return ⟨scheme, auth, String.ofList path, query, fragment⟩
  else .error (.badCharacter r.index)

variable {scheme auth query : Option String} {path : List Char}

theorem ending_hash (index : Nat) (cs : List Char) :
    ending scheme auth path query ⟨index, '#' :: cs⟩ = take inQuery ⟨index + 1, cs⟩ >>= fun p =>
      if p.2.chars = [] then
        .ok ⟨scheme, auth, String.ofList path, query, some (String.ofList p.1)⟩
      else .error (.badCharacter p.2.index) := by
  unfold ending
  rw [show Rest.after? ⟨index, '#' :: cs⟩ ['#'] = some ⟨index + 1, cs⟩ from rfl]
  dsimp only
  cases take inQuery ⟨index + 1, cs⟩ <;> rfl

theorem extends_ending (r : Rest) :
    Extends F (ending scheme auth path query r) (ending scheme auth path query (r.before F)) := by
  obtain ⟨index, cs⟩ := r
  cases cs with
  | nil =>
    intro q
    rw [show Rest.before ⟨index, []⟩ F = ⟨index, '#' :: F⟩ from rfl, ending_hash]
    constructor
    · intro h
      cases htake : take inQuery ⟨index + 1, F⟩ with
      | error => rw [htake] at h; cases h
      | ok p =>
        rw [htake] at h
        change (if p.2.chars = [] then _ else _) = _ at h
        split at h
        · next hend =>
          obtain ⟨hspelled, htaken⟩ := isSpelled_of_takeChars htake hend
          cases h
          exact ⟨_, rfl, rfl, hspelled, by rw [htaken]⟩
        · cases h
    · rintro ⟨q₀, h, -, hspelled, rfl⟩
      cases h
      obtain ⟨i, htake⟩ : ∃ i, take inQuery ⟨index + 1, F⟩ = .ok (F, ⟨i, []⟩) :=
        takeChars_of_isSpelled hspelled
      rw [htake]
      rfl
  | cons c cs =>
    by_cases hc : c = '#'
    · subst hc
      have hquery : Stops (take inQuery) := stops_take rfl
      rw [show Rest.before ⟨index, '#' :: cs⟩ F = ⟨index, '#' :: (cs ++ '#' :: F)⟩ from rfl,
        ending_hash, ending_hash, show (⟨index + 1, cs ++ '#' :: F⟩ : Rest) =
          Rest.before ⟨index + 1, cs⟩ F from rfl, hquery ⟨index + 1, cs⟩ F]
      cases take inQuery ⟨index + 1, cs⟩ with
      | error f => exact extends_error F f f
      | ok p =>
        intro q
        constructor
        · intro h
          change (if (p.2.before F).chars = [] then _ else _) = _ at h
          rw [if_neg (by simp [Rest.before])] at h
          cases h
        · rintro ⟨q₀, h, hnone, -⟩
          change (if p.2.chars = [] then _ else _) = _ at h
          split at h
          · cases h
            cases hnone
          · cases h
    · have hnone : ∀ cs, Rest.after? ⟨index, c :: cs⟩ ['#'] = none := by
        intro cs
        unfold Rest.after? Text.strip?
        rw [if_neg (Ne.symm hc)]
        rfl
      unfold ending
      rw [show Rest.before ⟨index, c :: cs⟩ F = ⟨index, c :: (cs ++ '#' :: F)⟩ from rfl, hnone, hnone]
      exact extends_error F _ _

theorem finish_eq (scheme auth : Option String) (path : List Char) (r : Rest) :
    finish scheme auth path r = match r.after? ['?'] with
      | some r => take inQuery r >>= fun p =>
        ending scheme auth path (some (String.ofList p.1)) p.2
      | none => ending scheme auth path none r := by
  unfold finish
  cases r.after? ['?'] with
  | none => rfl
  | some r =>
    dsimp only
    cases take inQuery r <;> rfl

theorem extends_finish (scheme auth : Option String) (path : List Char) (r : Rest) :
    Extends F (finish scheme auth path r) (finish scheme auth path (r.before F)) := by
  rw [finish_eq, finish_eq, after?_before (by decide)]
  cases r.after? ['?'] with
  | none => exact extends_ending r
  | some r => exact .bind (stops_take rfl) (fun _ r => extends_ending r) r

theorem extends_withAuthority (scheme : Option String) (r : Rest) :
    Extends F (withAuthority scheme r) (withAuthority scheme (r.before F)) := by
  refine .bind stops_readAuthority (fun auth rest => ?_) r
  refine .bind (stops_take rfl) (fun path behind => ?_) rest
  dsimp only
  split
  · split
    · exact extends_finish _ _ _ _
    · exact extends_error F _ _
  · exact extends_finish _ _ _ _

/-- Reads what stands behind a scheme and its colon. -/
def behindScheme (scheme : Option String) (r : Rest) : Except ReferenceFault Reference :=
  match r.after? ['/', '/'] with
  | some r => withAuthority scheme r
  | none => take inPath r >>= fun p => finish scheme none p.1 p.2

theorem extends_behindScheme (scheme : Option String) (r : Rest) :
    Extends F (behindScheme scheme r) (behindScheme scheme (r.before F)) := by
  unfold behindScheme
  rw [after?_before (by decide)]
  cases r.after? ['/', '/'] with
  | none => exact .bind (stops_take rfl) (fun _ _ => extends_finish _ _ _ _) r
  | some r => exact extends_withAuthority scheme r

/-- Reads a path that does not begin with a scheme. -/
def relativePath (p : List Char × Rest) : Except ReferenceFault Reference :=
  match p.2.chars with
  | ':' :: _ => .error (.badCharacter p.2.index)
  | _ => take inPath p.2 >>= fun q => finish none none (p.1 ++ q.1) q.2

theorem extends_relativePath (t : List Char) (r : Rest) :
    Extends F (relativePath (t, r)) (relativePath (t, r.before F)) := by
  have hplain : Extends F (take inPath r >>= fun q => finish none none (t ++ q.1) q.2)
      (take inPath (r.before F) >>= fun q => finish none none (t ++ q.1) q.2) :=
    .bind (stops_take rfl) (fun _ _ => extends_finish _ _ _ _) r
  obtain ⟨index, cs⟩ := r
  unfold relativePath
  match cs with
  | [] => exact hplain
  | c :: cs =>
    by_cases hc : c = ':'
    · subst hc
      exact extends_error F _ _
    · simp only [chars_before_cons]
      split
      · next heq => exact absurd (List.cons.inj heq).1 hc
      · split
        · next heq => exact absurd (List.cons.inj heq).1 hc
        · exact hplain

/-- Reads a reference without a scheme. -/
def withoutScheme (front : List Char) (r : Rest) : Except ReferenceFault Reference :=
  match (if front = [] then r.after? ['/', '/'] else none) with
  | some r => withAuthority none r
  | none => take inFirstSegment r >>= relativePath

theorem extends_withoutScheme (front : List Char) (r : Rest) :
    Extends F (withoutScheme front r) (withoutScheme front (r.before F)) := by
  have hrelative : Extends F (take inFirstSegment r >>= relativePath)
      (take inFirstSegment (r.before F) >>= relativePath) :=
    .bind (stops_take rfl) extends_relativePath r
  unfold withoutScheme
  rw [after?_before (by decide)]
  by_cases hfront : front = []
  · simp only [hfront, if_true]
    cases r.after? ['/', '/'] with
    | none => exact hrelative
    | some r => exact extends_withAuthority none r
  · simp only [hfront, if_false]
    exact hrelative

/-- Reads a reference whose first characters of a scheme are taken. -/
def parseRest (start : Rest) (p : List Char × Rest) : Except ReferenceFault Reference :=
  match p.2.chars with
  | ':' :: _ =>
    match p.1 with
    | c :: _ =>
      if c.isAlpha then behindScheme (some (String.ofList p.1)) p.2.skip else .error (.badCharacter 0)
    | [] => .error (.badCharacter 0)
  | _ => withoutScheme p.1 start

theorem parse_eq (s : String) :
    parse s = parseRest ⟨0, s.toList⟩ (takePlain isSchemeChar ⟨0, s.toList⟩) := by
  unfold parse
  dsimp only
  generalize takePlain isSchemeChar ⟨0, s.toList⟩ = p
  obtain ⟨front, ⟨index, cs⟩⟩ := p
  dsimp only
  have hwithout : (match (if front = [] then Rest.after? ⟨0, s.toList⟩ ['/', '/'] else none) with
      | some r => withAuthority none r
      | none => do
        let (first, r) ← take inFirstSegment ⟨0, s.toList⟩
        match r.chars with
        | ':' :: _ => .error (.badCharacter r.index)
        | _ =>
          let (path, r) ← take inPath r
          finish none none (first ++ path) r) = withoutScheme front ⟨0, s.toList⟩ := by
    unfold withoutScheme relativePath
    rfl
  match cs with
  | [] => exact hwithout
  | c :: cs =>
    by_cases hc : c = ':'
    · subst hc
      cases front with
      | nil => rfl
      | cons d front =>
        show (if d.isAlpha then _ else _) = (if d.isAlpha then _ else _)
        split
        · unfold behindScheme
          rfl
        · rfl
    · have hrest : parseRest ⟨0, s.toList⟩ (front, ⟨index, c :: cs⟩) =
          withoutScheme front ⟨0, s.toList⟩ := by
        unfold parseRest
        split
        · next heq => exact absurd (List.cons.inj heq).1 hc
        · rfl
      rw [← hwithout] at hrest
      refine Eq.trans ?_ hrest.symm
      split
      · next heq => exact absurd (List.cons.inj heq).1 hc
      · rfl

theorem extends_parse (A : List Char) :
    Extends F (parse (String.ofList A)) (parse (String.ofList (A ++ '#' :: F))) := by
  have hbefore : (⟨0, (String.ofList (A ++ '#' :: F)).toList⟩ : Rest) =
      Rest.before ⟨0, (String.ofList A).toList⟩ F := by
    rw [String.toList_ofList, String.toList_ofList]
    rfl
  rw [parse_eq, parse_eq, hbefore, takePlain_before (by decide)]
  generalize (⟨0, (String.ofList A).toList⟩ : Rest) = start
  generalize takePlain isSchemeChar start = p
  obtain ⟨front, ⟨index, cs⟩⟩ := p
  unfold parseRest
  match cs with
  | [] => exact extends_withoutScheme front start
  | c :: cs =>
    by_cases hc : c = ':'
    · subst hc
      cases front with
      | nil => exact extends_error F _ _
      | cons d front =>
        simp only [chars_before_cons, skip_before_cons]
        split
        · exact extends_behindScheme _ _
        · exact extends_error F _ _
    · simp only [chars_before_cons]
      split
      · next heq => exact absurd (List.cons.inj heq).1 hc
      · split
        · next heq => exact absurd (List.cons.inj heq).1 hc
        · exact extends_withoutScheme front start

end RecordCheck.Reference
