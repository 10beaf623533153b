import RecordCheck.Proofs.Schema.SelfContained
import RecordCheck.Proofs.Validator.Growth

/-!
# Gathering a document

What is gathered from an address in a self-contained document: the document, whichever part of it the
address names, besides what is known before. Taking up its schemas neither wants nor notes anything.
-/

namespace RecordCheck

set_option autoImplicit false

open Effects

namespace Library

variable {v : Json} {d : Gathering} {base : Reference}

theorem ownAddress?_of_isSelfContained (h : v.isSelfContained = true) : ownAddress? v = none := by
  unfold ownAddress?
  split
  · next id _ hid => exact absurd hid (Json.string?_of_isSelfContained h (by decide) id)
  · rfl

theorem anchor?_of_isSelfContained (h : v.isSelfContained = true) : anchor? v = none := by
  unfold anchor?
  split
  · next id _ hid => exact absurd hid (Json.string?_of_isSelfContained h (by decide) id)
  · rfl

theorem baseWithin_of_isSelfContained (h : v.isSelfContained = true) (base : Reference) :
    baseWithin base v = .ok base := by
  unfold baseWithin
  rw [ownAddress?_of_isSelfContained h]

theorem checkLanguage_of_isSelfContained (h : v.isSelfContained = true) :
    checkLanguage v = .ok () := by
  unfold checkLanguage
  split
  · next name hname => exact absurd hname (Json.string?_of_isSelfContained h (by decide) name)
  · rfl

theorem at_of_mem_partsAt {keyword : String} {c : Json} (h : c ∈ partsAt keyword v) :
    ∃ ks, Json.At v ks c := by
  have hfield : ∀ {fields : List (String × Json)}, c ∈ fields.map (·.2) →
      ∃ ks, Json.At (.object fields) ks c := by
    intro fields hc
    obtain ⟨e, he, rfl⟩ := List.mem_map.mp hc
    exact ⟨_, .field he (.here _)⟩
  have hitem : ∀ {items : List Json}, c ∈ items → ∃ ks, Json.At (.array items) ks c := by
    intro items hc
    obtain ⟨i, hi⟩ := List.getElem?_of_mem hc
    exact ⟨_, .item hi (.here _)⟩
  have hself : ∀ {w : Json}, c ∈ [w] → ∃ ks, Json.At w ks c := by
    intro w hc
    rw [List.mem_singleton.mp hc]
    exact ⟨[], .here w⟩
  unfold partsAt at h
  split at h
  case h_12 =>
    split at h
    · exact hfield h
    · cases h
  case h_13 => cases h
  all_goals first
    | exact hfield h
    | exact hitem h
    | exact hself h

theorem isSelfContained_of_mem_parts (h : v.isSelfContained = true) {c : Json} (hc : c ∈ parts v) :
    c.isSelfContained = true := by
  unfold parts at hc
  split at hc
  · obtain ⟨e, he, hc⟩ := List.mem_flatMap.mp hc
    obtain ⟨ks, hat⟩ := at_of_mem_partsAt hc
    exact Json.isSelfContained_of_at h (.field he hat)
  · cases hc

theorem forM_checkLanguage {vs : List Json} (h : ∀ v ∈ vs, v.isSelfContained = true) :
    vs.forM checkLanguage = .ok () := by
  induction vs with
  | nil => rfl
  | cons v vs ih =>
    show (do checkLanguage v; vs.forM checkLanguage) = _
    rw [checkLanguage_of_isSelfContained (h v List.mem_cons_self)]
    exact ih fun w hw => h w (List.mem_cons_of_mem v hw)

/-- A self-contained schema refers to nothing. -/
theorem note_of_isSelfContained (h : v.isSelfContained = true) (fuel : Nat) :
    note base fuel v d = .ok d := by
  cases fuel with
  | zero => rfl
  | succ fuel =>
    have hnone : ∀ key ∈ ["$ref", "$schema"], (v.get? key).bind Json.string? = none := by
      intro key hkey
      have hkeys : key ∈ ["$ref", "id", "$schema"] := by
        rcases List.mem_cons.mp hkey with rfl | hkey
        · decide
        · rw [List.mem_singleton.mp hkey]
          decide
      cases hget : v.get? key with
      | none => rfl
      | some w =>
        cases w with
        | string s => exact absurd hget (Json.string?_of_isSelfContained h hkeys s)
        | _ => rfl
    unfold note
    dsimp only
    rw [List.filterMap_eq_nil_iff.mpr hnone]
    rfl

theorem visit_of_isSelfContained (h : v.isSelfContained = true) :
    visit d base v = .ok (d, (parts v).map fun s => (base, s)) := by
  unfold visit
  rw [baseWithin_of_isSelfContained h, ownAddress?_of_isSelfContained h,
    anchor?_of_isSelfContained h]
  show (do
    let d ← note base (v.count + 2) v d
    (parts v).forM checkLanguage
    return (d, (parts v).map fun s => (base, s))) = _
  rw [note_of_isSelfContained h,
    forM_checkLanguage fun c hc => isSelfContained_of_mem_parts h hc]
  rfl

/-- Takes up one schema of a level, after those whose insides are in `p`. -/
def takeUp (p : Gathering × List (Reference × Json)) (q : Reference × Json) :
    Except BuildFault (Gathering × List (Reference × Json)) := do
  let (d, inside) ← visit p.1 q.1 q.2
  return (d, p.2 ++ inside)

theorem visitAll_cons (fuel : Nat) (d : Gathering) (p : Reference × Json)
    (level : List (Reference × Json)) : visitAll (fuel + 1) d (p :: level) =
      (p :: level).foldlM takeUp (d, []) >>= fun q => visitAll fuel q.1 q.2 := rfl

/-- Taking up self-contained schemas adds nothing. -/
theorem visitAll_of_isSelfContained (fuel : Nat) {level : List (Reference × Json)}
    (h : ∀ p ∈ level, p.2.isSelfContained = true) : visitAll fuel d level = .ok d := by
  have hfold : ∀ (level next : List (Reference × Json)),
      (∀ p ∈ level, p.2.isSelfContained = true) → (∀ p ∈ next, p.2.isSelfContained = true) →
      ∃ next', level.foldlM takeUp (d, next) = .ok (d, next') ∧
        ∀ p ∈ next', p.2.isSelfContained = true := by
    intro level
    induction level with
    | nil => exact fun next _ hnext => ⟨next, rfl, hnext⟩
    | cons p level ih =>
      intro next hlevel hnext
      have hp : p.2.isSelfContained = true := hlevel p List.mem_cons_self
      rw [List.foldlM_cons, takeUp, visit_of_isSelfContained hp]
      refine ih _ (fun q hq => hlevel q (List.mem_cons_of_mem p hq)) fun q hq => ?_
      rcases List.mem_append.mp hq with hq | hq
      · exact hnext q hq
      · obtain ⟨c, hc, rfl⟩ := List.mem_map.mp hq
        exact isSelfContained_of_mem_parts hp hc
  induction fuel generalizing level with
  | zero => rfl
  | succ fuel ih =>
    cases level with
    | nil => rfl
    | cons p level =>
      obtain ⟨next, hnext, hself⟩ := hfold (p :: level) [] h nofun
      rw [visitAll_cons, hnext]
      exact ih hself

/-! ## From the start -/

variable {uri : String} {target : Reference} {url : Url} {document : Json} {st st' : Store}

/-- The address of a node refers to a document that is not known without being loaded. -/
structure Refers (uri : String) (target : Reference) : Prop where
  resolved : resolve startAddress uri = .ok target
  unknown : isKnown uri = false
  outside : "#".isPrefixOf uri = false

theorem resolveOutside_start (uri : String) :
    resolveOutside startAddress uri = resolve startAddress uri := rfl

theorem visit_start (h : Refers uri target) (l : Library) :
    visit ⟨l, [], []⟩ startAddress (startSchema uri) =
      .ok (⟨l, [target], [(startAddress.text, uri)]⟩, []) := by
  have hnote : note startAddress ((startSchema uri).count + 2) (startSchema uri) ⟨l, [], []⟩ =
      .ok ⟨l, [target], [(startAddress.text, uri)]⟩ := by
    have hreferences : (["$ref", "$schema"].filterMap fun key =>
        ((startSchema uri).get? key).bind Json.string?) = [uri] := rfl
    unfold note
    dsimp only
    rw [hreferences, List.foldlM_cons, h.unknown, h.outside, resolveOutside_start, h.resolved]
    rfl
  show (do
    let d ← note startAddress ((startSchema uri).count + 2) (startSchema uri) ⟨l, [], []⟩
    [].forM checkLanguage
    return (d, [])) = _
  rw [hnote]
  rfl

/-- The address of a document without fragment is not yet among the schemas, and can be read. -/
structure Readable (l : Library) (target : Reference) (url : Url) : Prop where
  fresh : Json.find? { target with fragment := none : Reference }.text l.schemas = none
  read : Url.parse { target with fragment := none : Reference }.text = .ok url

theorem liftM_ok {α : Type} (a : α) (st : Store) :
    (liftM (Except.ok a : Except BuildFault α) : GatherM α) st = (.ok a, st) := rfl

/-- Fetching a document loads it, whatever part of it is wanted. -/
theorem fetch_apply {d : Gathering} (h : Readable d.library target url) (st : Store) :
    fetch d target st = match Store.document url st with
      | (.error f, st') =>
        (.error (.notLoaded { target with fragment := none : Reference }.text f), st')
      | (.ok document, st') => (do
        let _ ← checkLanguage document
        let d := { d with library := { d.library with schemas :=
          d.library.schemas ++ [({ target with fragment := none : Reference }.text, document)] } }
        match target.fragment with
        | none => return (d, [(target, document)])
        | some fragment =>
          match Pointer.lookup? document fragment with
          | none => return (d, [])
          | some part =>
            let _ ← checkLanguage part
            return (d, [(target, part)]), st') := by
  unfold fetch
  dsimp only
  rw [h.fresh, h.read]
  show (liftStore _ (Store.document url) >>= _) st = _
  rw [bind_apply, liftStore_apply]
  rcases Store.document url st with ⟨r, st'⟩
  cases r with
  | error f => rfl
  | ok document =>
    dsimp only
    rw [bind_apply]
    cases checkLanguage document with
    | error f => rfl
    | ok _ =>
      rw [liftM_ok]
      dsimp only
      cases target.fragment with
      | none => rfl
      | some fragment =>
        dsimp only
        cases Pointer.lookup? document fragment with
        | none => rfl
        | some part =>
          dsimp only
          cases checkLanguage part <;> rfl

/-- What is known before anything is loaded. -/
def atStart (uri : String) : Library :=
  ⟨[(MetaSchema.address, MetaSchema.document), (startAddress.text, startSchema uri)], []⟩

/-- The library of a document that refers to no other. -/
def ofDocument (uri : String) (target : Reference) (document : Json) : Library :=
  ⟨(atStart uri).schemas ++ [({ target with fragment := none : Reference }.text, document)], []⟩

theorem rounds_succ (fuel : Nat) (d : Gathering) (schemas : List (Reference × Json)) :
    rounds (fuel + 1) d schemas = liftM (visitAll (levels schemas) d schemas) >>= fun d =>
      if d.wanted.isEmpty then pure d.library
      else fetchAll { d with wanted := [] } d.wanted >>= fun p => rounds fuel p.1 p.2 := rfl

theorem fetchAll_singleton (d : Gathering) (target : Reference) :
    fetchAll d [target] = fetch d target >>= fun p => pure (p.1, p.2 ++ []) := rfl

theorem gather_start (h : Refers uri target) (st : Store) : gather uri st =
    (fetchAll ⟨atStart uri, [], [(startAddress.text, uri)]⟩ [target] >>=
      fun p => rounds (roundLimit - 1) p.1 p.2) st := by
  obtain ⟨k, hk⟩ : ∃ k, roundLimit = k + 1 := ⟨1 <<< 64 - 1, by decide⟩
  have hvisit : visitAll (levels [(startAddress, startSchema uri)]) ⟨atStart uri, [], []⟩
      [(startAddress, startSchema uri)] =
        .ok ⟨atStart uri, [target], [(startAddress.text, uri)]⟩ := by
    have hlevels : levels [(startAddress, startSchema uri)] = 3 := rfl
    rw [hlevels, visitAll_cons, List.foldlM_cons, takeUp, visit_start h]
    rfl
  have hgather : gather uri = rounds roundLimit ⟨atStart uri, [], []⟩
      [(startAddress, startSchema uri)] := rfl
  rw [hgather, hk, Nat.add_sub_cancel]
  rw [rounds_succ, hvisit, bind_apply, liftM_ok]
  rfl

theorem rounds_of_isSelfContained {d : Gathering} {schemas : List (Reference × Json)} {fuel : Nat}
    (h : ∀ p ∈ schemas, p.2.isSelfContained = true) (hd : d.wanted = []) (st : Store) :
    rounds (fuel + 1) d schemas st = (.ok d.library, st) := by
  rw [rounds_succ, visitAll_of_isSelfContained _ h, bind_apply, liftM_ok]
  dsimp only
  rw [hd]
  rfl

/-- A self-contained document is all that is gathered from an address in it. -/
theorem gather_of_document (h : Refers uri target) (hread : Readable (atStart uri) target url)
    (hdocument : Store.document url st = (.ok document, st')) (hself : document.isSelfContained = true) :
    gather uri st = (.ok (ofDocument uri target document), st') := by
  rw [gather_start h]
  have hfetch : ∃ next, fetch ⟨atStart uri, [], [(startAddress.text, uri)]⟩ target st =
      (.ok (⟨ofDocument uri target document, [], [(startAddress.text, uri)]⟩, next), st') ∧
        ∀ p ∈ next, p.2.isSelfContained = true := by
    rw [fetch_apply hread, hdocument]
    dsimp only
    rw [checkLanguage_of_isSelfContained hself]
    cases target.fragment with
    | none =>
      refine ⟨_, rfl, fun p hp => ?_⟩
      rw [List.mem_singleton.mp hp]
      exact hself
    | some fragment =>
      dsimp only
      cases hpart : Pointer.lookup? document fragment with
      | none => exact ⟨[], rfl, nofun⟩
      | some part =>
        obtain ⟨ks, -, hfollow⟩ := Option.bind_eq_some_iff.mp hpart
        have hpart := Json.isSelfContained_of_at hself (.of_follow? hfollow)
        dsimp only
        rw [checkLanguage_of_isSelfContained hpart]
        refine ⟨_, rfl, fun p hp => ?_⟩
        rw [List.mem_singleton.mp hp]
        exact hpart
  obtain ⟨next, hnext, hall⟩ := hfetch
  rw [fetchAll_singleton]
  refine bind_ok_iff.mpr ⟨_, st', bind_ok_iff.mpr ⟨_, st', hnext, rfl⟩, ?_⟩
  obtain ⟨k, hk⟩ : ∃ k, roundLimit - 1 = k + 1 := ⟨1 <<< 64 - 2, by decide⟩
  rw [hk, rounds_of_isSelfContained ?_ rfl]
  rwa [List.append_nil]

/-- Whatever is gathered from an address, its document was loaded on the way. -/
theorem exists_document {l : Library} (h : Refers uri target)
    (hread : Readable (atStart uri) target url) (hgather : gather uri st = (.ok l, st')) :
    ∃ document st₁, Store.document url st = (.ok document, st₁) ∧ st₁.Extends st' := by
  rw [gather_start h, fetchAll_singleton] at hgather
  obtain ⟨p, st₁, hfetch, hrounds⟩ := bind_ok_iff.mp hgather
  obtain ⟨q, st₂, hfetch, hpure⟩ := bind_ok_iff.mp hfetch
  rw [pure_apply] at hpure
  cases hpure
  rw [fetch_apply hread] at hfetch
  split at hfetch
  · cases hfetch
  · next document st₃ hdocument =>
    injection hfetch with _ hst
    rw [← hst] at hrounds
    exact ⟨document, st₃, hdocument, keeps_rounds _ _ _ _ _ _ hrounds⟩

/-- Wherever a self-contained document was loaded, it is the one that a later store answers. -/
theorem eq_of_gather {l : Library} {t : Store} (h : Refers uri target)
    (hread : Readable (atStart uri) target url) (hgather : gather uri st = (.ok l, st'))
    (hgrow : st'.Extends t) (hdocument : Answers t (Store.document url) document)
    (hself : document.isSelfContained = true) : l = ofDocument uri target document := by
  obtain ⟨d, st₁, hload, hst⟩ := exists_document h hread hgather
  obtain rfl := ((Store.steady_document url).answers hload (hst.trans hgrow)).unique hdocument
  cases hgather.symm.trans (gather_of_document h hread hload hself)
  rfl

end Library

end RecordCheck
