import RecordCheck.Proofs.Json.Quotes
import RecordCheck.Report.Complaint
import RecordCheck.Report.Parameters
import RecordCheck.Validator.Build

/-!
# What is read from the words of a failure

The words that a complaint is put in, read by the parameters of its keyword: the missing name comes back
whatever it is, the unexpected names as long as none of them has the mark that they are put in, and the
allowed types whatever the value says. The words of a schema that refuses all tell no parameter.
-/

namespace RecordCheck

set_option autoImplicit false

open Json.Mode

namespace Failure

variable {f : Failure} {v : Json} {w s rest : List Char} {c : Char}

/-- Words that begin with the letter `i`, as they do where a list of types or of values follows. -/
structure Leads (w : List Char) : Prop extends Json.IsWords w where
  first : w.head? = some 'i'

theorem leads_of_all (hletters : w.all (fun c => decide (c.isAlpha = true ∨ c = ' ')) = true)
    (hspace : ' ' ∈ w) (hfirst : w.head? = some 'i') : Leads w where
  letters := Text.forall_mem_of_all hletters
  space := hspace
  head := by
    intro c hc
    rw [hfirst] at hc
    cases hc
    decide
  first := hfirst

theorem exists_of_firstAfter? {α : Type} {read : List Char → Option α} {a : α}
    (h : firstAfter? w read s = some a) : ∃ p rest, s = p ++ (w ++ rest) ∧ read rest = some a := by
  induction s with
  | nil =>
    obtain ⟨rest, hrest, ha⟩ := Option.bind_eq_some_iff.mp h
    exact ⟨[], rest, (Text.eq_append_of_strip? hrest).trans rfl, ha⟩
  | cons c r ih =>
    unfold firstAfter? at h
    split at h
    · next b hb =>
      obtain ⟨rest, hrest, ha⟩ := Option.bind_eq_some_iff.mp hb
      cases h
      exact ⟨[], rest, (Text.eq_append_of_strip? hrest).trans rfl, ha⟩
    · obtain ⟨p, rest, rfl, ha⟩ := ih h
      exact ⟨c :: p, rest, rfl, ha⟩

theorem firstAfter?_cons {α : Type} (w : List Char) (read : List Char → Option α) (c : Char)
    (r : List Char) : firstAfter? w read (c :: r) =
      ((Text.strip? w (c :: r)).bind read).or (firstAfter? w read r) := by
  rw [firstAfter?]
  cases (Text.strip? w (c :: r)).bind read <;> rfl

theorem firstAfter?_here {α : Type} {read : List Char → Option α} {a : α}
    (h : read rest = some a) : firstAfter? w read (w ++ rest) = some a := by
  have hplace : (Text.strip? w (w ++ rest)).bind read = some a := by
    rw [Text.strip?_append, Option.bind_some, h]
  cases hs : w ++ rest with
  | nil =>
    rw [hs] at hplace
    exact hplace
  | cons c s =>
    rw [hs] at hplace
    rw [firstAfter?_cons, hplace]
    rfl

/-- Where something can be read there is an answer, from this place or from one in front of it. -/
theorem exists_firstAfter?_append {α : Type} {read : List Char → Option α} {a : α}
    {p rest : List Char} (h : read rest = some a) :
    ∃ q rest' b, firstAfter? w read (p ++ (w ++ rest)) = some b ∧
      p ++ (w ++ rest) = q ++ (w ++ rest') ∧ q.length ≤ p.length ∧ read rest' = some b := by
  induction p with
  | nil => exact ⟨[], rest, a, firstAfter?_here h, rfl, Nat.le_refl _, h⟩
  | cons c p ih =>
    rw [List.cons_append, firstAfter?_cons]
    cases hhere : (Text.strip? w (c :: (p ++ (w ++ rest)))).bind read with
    | some b =>
      obtain ⟨rest', hrest', hb⟩ := Option.bind_eq_some_iff.mp hhere
      exact ⟨[], rest', b, rfl, (Text.eq_append_of_strip? hrest').trans rfl, Nat.zero_le _, hb⟩
    | none =>
      obtain ⟨q, rest', b, hb, hsplit, hlength, hread⟩ := ih
      exact ⟨c :: q, rest', b, hb, congrArg (c :: ·) hsplit, Nat.succ_le_succ hlength, hread⟩

/-- Places where nothing can be read are passed over. -/
theorem firstAfter?_append {α : Type} {read : List Char → Option α} {p : List Char}
    (h : ∀ q t, p = q ++ t → t ≠ [] → ∀ rest, t ++ s = w ++ rest → read rest = none) :
    firstAfter? w read (p ++ s) = firstAfter? w read s := by
  induction p with
  | nil => rfl
  | cons c p ih =>
    have hhere : (Text.strip? w (c :: (p ++ s))).bind read = none := by
      cases hstrip : Text.strip? w (c :: (p ++ s)) with
      | none => rfl
      | some rest => exact h [] (c :: p) rfl nofun rest (Text.eq_append_of_strip? hstrip)
    rw [List.cons_append, firstAfter?_cons, hhere, Option.none_or]
    apply ih
    intro q t hp
    exact h (c :: q) t (congrArg (c :: ·) hp)

/-- Behind words in the text of a value nothing can be read that goes on with more than the value, when
this more does not lead out of quotes. -/
theorem not_reads_within {a e : List Char} (hw : Json.IsWords w) (htext : Json.text v = s ++ (w ++ a))
    (he : Json.Mode.behind? Json.isUnescaped inside e ≠ some outside) :
    Json.Mode.behind? Json.isUnescaped outside (a ++ e) ≠ some outside := by
  intro hread
  have hwithin := Json.behind?_of_isWords hw htext
  rw [behind?_append, Option.bind_eq_some_iff] at hread
  obtain ⟨m, hm, hread⟩ := hread
  -- read from the words on, quotes open where they close in the value
  cases Json.Mode.Swapped.inner.behind? rfl rfl hwithin hm
  exact he hread

/-! ## Lists that are read -/

/-- A list of types leads from outside quotes to outside. -/
theorem behind?_of_typeList? {pieces : List (List Char)} {names : List String}
    (h : typeList? pieces = some names) :
    Json.Mode.behind? Json.isUnescaped outside (Text.joinWith ['"'] pieces) = some outside := by
  have hgap : ∀ gap : List Char, (gap.isEmpty || gap == [',', ' ']) = true →
      Json.Mode.behind? Json.isUnescaped outside gap = some outside := by
    intro gap h
    rw [Bool.or_eq_true, List.isEmpty_iff, beq_iff_eq] at h
    rcases h with rfl | rfl <;> rfl
  fun_induction typeList? pieces generalizing names with
  | case1 gap hgood => exact hgap gap hgood
  | case2 => cases h
  | case3 gap name r hgood ih =>
    obtain ⟨rest, hrest, -⟩ := Option.map_eq_some_iff.mp h
    simp only [Bool.and_eq_true] at hgood
    have hname : Json.Mode.behind? Json.isUnescaped inside name = some inside := by
      refine behind?_inside fun c hc => ?_
      have hlower := List.all_eq_true.mp hgood.2 c hc
      constructor <;>
      · rintro rfl
        exact absurd hlower (by decide)
    cases r with
    | nil => cases hrest
    | cons p r =>
      show Json.Mode.behind? _ _ (gap ++ ['"'] ++ (name ++ ['"'] ++ Text.joinWith ['"'] (p :: r))) = _
      simp only [behind?_append, hgap gap hgood.1.1, Option.bind_some]
      show ((Json.Mode.behind? Json.isUnescaped inside name).bind _).bind _ = _
      rw [hname]
      exact ih hrest
  | case4 => cases h
  | case5 => cases h

/-- So does all that a list of types is read from. -/
theorem behind?_of_typesAtEnd? {names : List String} (h : typesAtEnd? rest = some names) :
    Json.Mode.behind? Json.isUnescaped outside rest = some outside := by
  unfold typesAtEnd? at h
  obtain ⟨list, hlist, h⟩ := Option.bind_eq_some_iff.mp h
  obtain ⟨-, -, h⟩ := Option.bind_eq_some_iff.mp h
  obtain ⟨read, hread, -⟩ := Option.bind_eq_some_iff.mp h
  have hbehind := behind?_of_typeList? hread
  rw [Text.joinWith_cut] at hbehind
  have hlead : Text.strip? " ".toList rest = some list ∨ Text.strip? "s ".toList rest = some list := by
    cases hspace : Text.strip? " ".toList rest with
    | some l =>
      rw [hspace] at hlist
      exact .inl hlist
    | none =>
      rw [hspace] at hlist
      exact .inr hlist
  rcases hlead with hlead | hlead <;>
  · rw [Text.eq_append_of_strip? hlead]
    exact hbehind

/-! ## The words of a schema that refuses all -/

def refusal : List Char := "False schema does not allow ".toList

theorem toList_message_refused (v : Json) :
    (Complaint.refused.message v).toList = refusal ++ Json.text v := by
  have hcompact : v.compact.toList = Json.text v := String.toList_ofList
  rw [← hcompact]
  exact String.toList_append

/-- Words that a refusal goes on with behind the front of the value's text are inside quotes. -/
theorem behind?_of_refusal {p : List Char} (hw : Leads w)
    (h : refusal ++ Json.text v = p ++ (w ++ rest)) :
    Json.Mode.behind? Json.isBare inside rest = some outside := by
  rcases List.append_eq_append_iff.mp h with ⟨a, -, htext⟩ | ⟨a, hrefusal, hrest⟩
  · exact Json.behind?_of_isWords hw.toIsWords htext
  · cases a with
    | nil => exact Json.behind?_of_isWords hw.toIsWords (a := []) hrest.symm
    | cons c a =>
      -- the words would begin within the refusal itself
      exfalso
      have hc : w.head? = some c := by
        cases w with
        | nil => exact absurd rfl hw.ne_nil
        | cons d w => rw [(List.cons.inj hrest).1, List.head?_cons]
      have hi : 'i' ∈ refusal := by
        rw [hrefusal, ← Option.some.inj (hc.symm.trans hw.first)]
        exact List.mem_append_right p List.mem_cons_self
      exact absurd hi (by decide)

/-- What is read behind such words is no text of its own. -/
theorem firstAfter?_refusal {α : Type} {read : List Char → Option α} (hw : Leads w)
    (hread : ∀ rest a, read rest = some a →
      Json.Mode.behind? Json.isUnescaped outside rest = some outside) :
    firstAfter? w read (refusal ++ Json.text v) = none := by
  rw [Option.eq_none_iff_forall_ne_some]
  intro a ha
  obtain ⟨p, rest, h, hrest⟩ := exists_of_firstAfter? ha
  exact nomatch Json.Mode.Swapped.inner.behind? rfl rfl (behind?_of_refusal hw h) (hread rest a hrest)

theorem getLast?_refusal (hc : c ∈ (refusal ++ Json.text v).getLast?) :
    c ∈ [' ', '"', ']', '\x7d', 'l', 'e'] ∨ c.isDigit = true ∨ c ∈ Binary64.marks := by
  rw [List.getLast?_append, Option.mem_def, Option.or_eq_some_iff] at hc
  rcases hc with hc | ⟨-, hc⟩
  · exact (Json.mem_getLast?_text hc).imp_left (List.mem_cons_of_mem _)
  · cases hc
    exact .inl List.mem_cons_self

/-- No words that end otherwise than a refusal does can be taken off it. -/
theorem dropLast?_refusal (hlast : ∃ c ∈ ['s', 'r', 'y', ')'], w.getLast? = some c) :
    Text.dropLast? w (refusal ++ Json.text v) = none := by
  rw [Option.eq_none_iff_forall_ne_some]
  intro r hr
  obtain ⟨c, hc, hlast⟩ := hlast
  have hend : c ∈ (refusal ++ Json.text v).getLast? := by
    rw [Text.eq_append_of_dropLast? hr, List.getLast?_append, hlast]
    rfl
  have hnot := Text.forall_mem_of_all (P := fun c => ¬ (c ∈ [' ', '"', ']', '\x7d', 'l', 'e'] ∨
    c.isDigit = true ∨ c ∈ Binary64.marks)) (by decide) c hc
  exact hnot (getLast?_refusal hend)

section

variable (h : f.message = Complaint.refused.message v)
include h

theorem missingName?_refused : f.missingName? = none := by
  unfold missingName?
  rw [h, toList_message_refused, dropLast?_refusal ⟨'y', by decide, rfl⟩]
  rfl

theorem extraNames?_refused (hunexpected : f.unexpected = []) : f.extraNames? = none := by
  have hwords : namesInWords? f.message.toList = none := by
    rw [h, toList_message_refused]
    rfl
  unfold extraNames?
  rw [hunexpected, hwords]

theorem limit?_refused (hvalue : f.schemaValue = some (.bool false)) (words : String) :
    f.limit? words = none := by
  have hwords : limitInWords? words f.message.toList = none := by
    unfold limitInWords?
    rw [h, toList_message_refused, dropLast?_refusal ⟨'s', by decide, rfl⟩,
      dropLast?_refusal ⟨'r', by decide, rfl⟩]
    rfl
  unfold limit?
  rw [hvalue, hwords]
  rfl

theorem allowedTypes?_refused (hvalue : f.schemaValue = some (.bool false)) :
    f.allowedTypes? = none := by
  unfold allowedTypes?
  rw [hvalue, h, toList_message_refused]
  exact firstAfter?_refusal (leads_of_all rfl (by decide) rfl) fun _ _ => behind?_of_typesAtEnd?

theorem allowedValues?_refused (hvalue : f.schemaValue = some (.bool false)) :
    f.allowedValues? = none := by
  unfold allowedValues?
  rw [hvalue, Option.eq_none_iff_forall_ne_some]
  intro values hvalues
  obtain ⟨list, hlist, hvalues⟩ := Option.bind_eq_some_iff.mp hvalues
  obtain ⟨u, hu, -⟩ := Option.bind_eq_some_iff.mp hvalues
  rw [h, toList_message_refused] at hlist
  obtain ⟨p, rest, hmessage, hrest⟩ := exists_of_firstAfter? hlist
  unfold listAtEnd? at hrest
  rw [Option.ite_none_right_eq_some] at hrest
  cases hrest.2
  have hwithin := behind?_of_refusal (leads_of_all rfl (by decide) rfl) hmessage
  exact nomatch Json.Mode.Swapped.inner.behind? rfl rfl hwithin (Json.behind?_of_parse? hu)

end

/-! ## A missing name -/

/-- The name of a missing property comes back, whatever it is. -/
theorem missingName?_missing {name : String} (h : f.message = (Complaint.missing name).message v) :
    f.missingName? = some name := by
  have hmessage : f.message.toList =
      Json.text (.string name) ++ " is a required property".toList := by
    rw [h]
    exact Json.toList_compact_append _ _
  have hline : isOneLine (Json.text (.string name)) = true := by
    unfold isOneLine
    rw [Bool.and_eq_true, Bool.not_eq_true', Bool.not_eq_true']
    refine ⟨rfl, ?_⟩
    rw [← Bool.not_eq_true, List.contains_iff_mem]
    exact Json.newline_notMem_quoted name
  have hparse : Json.parse? (String.ofList (Json.text (.string name))) = some (.string name) :=
    Json.parse?_compact_string name
  unfold missingName?
  rw [hmessage, Text.dropLast?_append, Option.bind_eq_bind, Option.bind_some, hline]
  dsimp only
  rw [hparse]
  rfl

/-! ## Lists of names in quotes -/

/-- Names between marks, one after another. -/
def listed (mark : Char) (names : List String) : List Char :=
  [',', ' '].intercalate (names.map fun n => mark :: (n.toList ++ [mark]))

theorem toList_quoted {mark : String} (hmark : mark.toList = [c]) (names : List String) :
    (Complaint.quoted mark names).toList = listed c names := by
  unfold Complaint.quoted listed
  rw [String.toList_intercalate, List.map_map]
  refine congrArg _ (List.map_congr_left fun n _ => ?_)
  show (mark ++ n ++ mark).toList = _
  rw [String.toList_append, String.toList_append, hmark]
  rfl

variable {mark : Char} {n m : String} {names r : List String} {p : List Char}

theorem append_listed_singleton :
    p ++ listed mark [n] = p ++ mark :: (n.toList ++ mark :: []) := by
  simp [listed, List.intercalate]

theorem append_listed_cons_cons : p ++ listed mark (n :: m :: r) =
    p ++ mark :: (n.toList ++ mark :: ([',', ' '] ++ listed mark (m :: r))) := by
  unfold listed
  rw [List.map_cons, List.map_cons, List.intercalate_cons_cons]
  simp

/-- Names without the mark come back from between the marks. -/
theorem quotedPieces_listed (hp : mark ∉ p) (hgap : mark ∉ [',', ' '])
    (hnames : ∀ m ∈ n :: r, mark ∉ m.toList) :
    quotedPieces (Text.cut mark (p ++ listed mark (n :: r))) = n :: r := by
  have hn := hnames n List.mem_cons_self
  induction r generalizing p n with
  | nil =>
    rw [append_listed_singleton, Text.cut_append_sep hp, Text.cut_append_sep hn]
    simp [Text.cut, quotedPieces]
  | cons m r ih =>
    have hrest := ih hgap (fun k hk => hnames k (List.mem_cons_of_mem n hk))
      (hnames m (List.mem_cons_of_mem n List.mem_cons_self))
    rw [append_listed_cons_cons, Text.cut_append_sep hp, Text.cut_append_sep hn]
    cases hcut : Text.cut mark ([',', ' '] ++ listed mark (m :: r)) with
    | nil => exact absurd hcut (Text.cut_ne_nil _ _)
    | cons q qs =>
      rw [hcut] at hrest
      rw [quotedPieces, hrest, String.ofList_toList]

/-- How the words about a closed object end, for one name and for several. -/
def IsEnding (ending : String) : Prop := ending = " was unexpected)" ∨ ending = " were unexpected)"

theorem isEnding_unexpectedEnd (count : Nat) : IsEnding (Complaint.unexpectedEnd count) := by
  unfold Complaint.unexpectedEnd
  split
  · exact .inl rfl
  · exact .inr rfl

/-- The words about a closed object tell what stands between the marks of their list. -/
theorem namesInWords?_append {ending : String} (hending : IsEnding ending) (list : List Char) :
    namesInWords? ("Additional properties are not allowed (".toList ++ (list ++ ending.toList)) =
      if isOneLine list then some (quotedPieces (Text.cut '\'' list)) else none := by
  -- the words end in one of two ways, and only the right one can be cut off
  have hend : (Text.dropLast? " was unexpected)".toList (list ++ ending.toList) <|>
      Text.dropLast? " were unexpected)".toList (list ++ ending.toList)) = some list := by
    rcases hending with rfl | rfl
    · rw [Text.dropLast?_append]
      rfl
    · have hnone : Text.dropLast? " was unexpected)".toList
          (list ++ " were unexpected)".toList) = none := by
        unfold Text.dropLast?
        rw [List.reverse_append]
        rfl
      rw [hnone, Text.dropLast?_append]
      rfl
  unfold namesInWords?
  rw [Text.strip?_append, Option.bind_eq_bind, Option.bind_some, hend, Option.bind_eq_bind,
    Option.bind_some]
  cases isOneLine list <;> rfl

/-- The names that a closed object does not allow come back when none of them has the mark. -/
theorem extraNames?_unexpected {extra : List String} (hne : names ≠ [])
    (h : f.message = (Complaint.unexpected names).message v) (hunexpected : f.unexpected = [])
    (hnames : ∀ n ∈ names, '\'' ∉ n.toList) (hextra : f.extraNames? = some extra) :
    extra = names := by
  have hmessage : f.message.toList = "Additional properties are not allowed (".toList ++
      (listed '\'' names ++ (Complaint.unexpectedEnd names.length).toList) := by
    have hquoted : (Complaint.quoted "'" names).toList = listed '\'' names := toList_quoted rfl names
    rw [h, ← hquoted, ← List.append_assoc, ← String.toList_append, ← String.toList_append]
    rfl
  have hread : ∀ read, namesInWords? f.message.toList = some read → read = names := by
    intro read hread
    rw [hmessage, namesInWords?_append (isEnding_unexpectedEnd _),
      Option.ite_none_right_eq_some] at hread
    cases hread.2
    obtain ⟨n, r, rfl⟩ := List.exists_cons_of_ne_nil hne
    exact quotedPieces_listed (p := []) List.not_mem_nil (by decide) hnames
  unfold extraNames? at hextra
  rw [hunexpected] at hextra
  dsimp only at hextra
  split at hextra
  · next hwords =>
    cases hextra
    exact hread _ hwords
  · cases hextra

/-! ## Allowed types -/

def typesWords : List Char := "is not of type".toList

theorem leads_typesWords : Leads typesWords := leads_of_all rfl (by decide) rfl

/-- What leads from the words to the list, for one type and for several. -/
def IsLead (lead : List Char) : Prop := lead = " ".toList ∨ lead = "s ".toList

/-- What says that a value is of none of the types. -/
def typesEnd (lead : List Char) (names : List String) : List Char :=
  ' ' :: (typesWords ++ (lead ++ listed '"' names))

theorem toList_message_wrongTypes (v : Json) (names : List String) :
    ((Complaint.wrongTypes names).message v).toList = Json.text v ++ typesEnd "s ".toList names := by
  have hquoted : (Complaint.quoted "\"" names).toList = listed '"' names := toList_quoted rfl names
  have hmessage : (Complaint.wrongTypes names).message v =
      v.compact ++ (" is not of types " ++ Complaint.quoted "\"" names) := String.append_assoc
  rw [hmessage, Json.toList_compact_append, String.toList_append, hquoted]
  rfl

/-- Names made of small letters. -/
def AreLower (names : List String) : Prop :=
  ∀ n ∈ names, n.toList ≠ [] ∧ ∀ c ∈ n.toList, isLower c = true

/-- Names of types. -/
def AreTypes (names : List String) : Prop := ∀ n ∈ names, n ∈ Build.typeNames

theorem AreTypes.areLower (hnames : AreTypes names) : AreLower names := by
  intro n hn
  have hall : Build.typeNames.all (fun n => !n.toList.isEmpty && n.toList.all isLower) = true := by
    decide
  have hname := List.all_eq_true.mp hall n (hnames n hn)
  rw [Bool.and_eq_true, Bool.not_eq_true', List.isEmpty_eq_false_iff, List.all_eq_true] at hname
  exact hname

namespace AreLower

theorem notMem (hnames : AreLower names) (hn : n ∈ names) (hc : isLower c = false) : c ∉ n.toList :=
  fun hmem => nomatch hc.symm.trans ((hnames n hn).2 c hmem)

theorem tail (hnames : AreLower (n :: r)) : AreLower r :=
  fun m hm => hnames m (List.mem_cons_of_mem n hm)

theorem piece (hnames : AreLower names) (hn : n ∈ names) (hp : p = [] ∨ p = [',', ' ']) :
    ((p.isEmpty || p == [',', ' ']) && !n.toList.isEmpty && n.toList.all isLower) = true := by
  obtain ⟨hne, hlower⟩ := hnames n hn
  rw [Bool.and_eq_true, Bool.and_eq_true, Bool.not_eq_true', List.isEmpty_eq_false_iff,
    List.all_eq_true]
  refine ⟨⟨?_, hne⟩, hlower⟩
  rcases hp with rfl | rfl <;> rfl

/-- A list of names is read back. -/
theorem typeList?_listed (hnames : AreLower (n :: r)) (hp : p = [] ∨ p = [',', ' ']) :
    typeList? (Text.cut '"' (p ++ listed '"' (n :: r))) = some (n :: r) := by
  have hgap : '"' ∉ p := by rcases hp with rfl | rfl <;> decide
  have hquote : '"' ∉ n.toList := hnames.notMem List.mem_cons_self (by decide)
  have hpiece := hnames.piece List.mem_cons_self hp
  induction r generalizing p n with
  | nil =>
    rw [append_listed_singleton, Text.cut_append_sep hgap, Text.cut_append_sep hquote, typeList?,
      if_pos hpiece, String.ofList_toList]
    rfl
  | cons m r ih =>
    have hm : m ∈ m :: r := List.mem_cons_self
    rw [append_listed_cons_cons, Text.cut_append_sep hgap, Text.cut_append_sep hquote, typeList?,
      if_pos hpiece, String.ofList_toList, ih hnames.tail (.inr rfl) (by decide)
        (hnames.tail.notMem hm (by decide)) (hnames.tail.piece hm (.inr rfl))]
    rfl

theorem typesAtEnd?_listed {lead : List Char} (hnames : AreLower (n :: r)) (hlead : IsLead lead) :
    typesAtEnd? (lead ++ listed '"' (n :: r)) = some (n :: r) := by
  have hback : typeList? (Text.cut '"' (listed '"' (n :: r))) = some (n :: r) :=
    hnames.typeList?_listed (.inl rfl)
  have hquote : ((listed '"' (n :: r)).head? == some '"') = true := by
    cases r with
    | nil => rfl
    | cons m r =>
      unfold listed
      rw [List.map_cons, List.map_cons, List.intercalate_cons_cons]
      rfl
  have hlist : (Text.strip? " ".toList (lead ++ listed '"' (n :: r)) <|>
      Text.strip? "s ".toList (lead ++ listed '"' (n :: r))) = some (listed '"' (n :: r)) := by
    rcases hlead with rfl | rfl <;> rfl
  unfold typesAtEnd?
  rw [hlist, Option.bind_eq_bind, Option.bind_some, hquote, hback]
  rfl

theorem behind?_name (hnames : AreLower names) (hn : n ∈ names) :
    Json.Mode.behind? Json.isUnescaped outside n.toList = some outside := by
  refine behind?_outside fun c hc => ?_
  have hlower := (hnames n hn).2 c hc
  refine ⟨?_, bne_iff_ne.mpr ?_⟩ <;>
  · rintro rfl
    cases hlower

/-- Going through a list of names inside quotes, one is inside again. -/
theorem behind?_listed (hnames : AreLower names) (hp : p = [] ∨ p = [',', ' ']) :
    Json.Mode.behind? Json.isUnescaped inside (p ++ listed '"' names) = some inside := by
  have hgap : Json.Mode.behind? Json.isUnescaped inside p = some inside := by
    rcases hp with rfl | rfl <;> rfl
  cases names with
  | nil => rwa [listed, List.map_nil, List.intercalate_nil, List.append_nil]
  | cons n r =>
    have hname := hnames.behind?_name List.mem_cons_self
    induction r generalizing p n with
    | nil =>
      rw [append_listed_singleton, behind?_append, hgap, Option.bind_some, behind?_cons]
      show Json.Mode.behind? Json.isUnescaped outside (n.toList ++ ['"']) = _
      rw [behind?_append, hname]
      rfl
    | cons m r ih =>
      rw [append_listed_cons_cons, behind?_append, hgap, Option.bind_some, behind?_cons]
      show Json.Mode.behind? Json.isUnescaped outside
        (n.toList ++ '"' :: ([',', ' '] ++ listed '"' (m :: r))) = _
      rw [behind?_append, hname, Option.bind_some, behind?_cons]
      exact ih (.inr rfl) rfl m hnames.tail (hnames.tail.behind?_name List.mem_cons_self)

theorem not_infix_name (hnames : AreLower names) (hn : n ∈ names) : ¬ typesWords <:+: n.toList :=
  fun h => hnames.notMem hn (by decide : isLower ' ' = false) (h.subset (by decide))

/-- No list of names has the words within it. -/
theorem not_infix_listed (hnames : AreLower names) (hp : ¬ typesWords <:+: p) :
    ¬ typesWords <:+: p ++ listed '"' names := by
  have hquote : '"' ∉ typesWords := by decide
  have hne : typesWords ≠ [] := by decide
  cases names with
  | nil => rwa [listed, List.map_nil, List.intercalate_nil, List.append_nil]
  | cons n r =>
    have hname := hnames.not_infix_name List.mem_cons_self
    induction r generalizing p n with
    | nil =>
      rw [append_listed_singleton, Text.infix_append_mark_iff hquote hne,
        Text.infix_append_mark_iff hquote hne, not_or, not_or]
      exact ⟨hp, hname, by decide⟩
    | cons m r ih =>
      rw [append_listed_cons_cons, Text.infix_append_mark_iff hquote hne,
        Text.infix_append_mark_iff hquote hne, not_or, not_or]
      have hgap : ¬ typesWords <:+: [',', ' '] := by decide
      exact ⟨hp, hname, ih hgap m hnames.tail (hnames.tail.not_infix_name List.mem_cons_self)⟩

end AreLower

section

variable {lead : List Char} (hnames : AreLower names) (hlead : IsLead lead)
include hnames hlead

/-- Within the text of the value the words are inside quotes, and so is all that follows them. -/
theorem not_reads_value {a : List Char} (htext : Json.text v = p ++ (typesWords ++ a)) :
    Json.Mode.behind? Json.isUnescaped outside (a ++ typesEnd lead names) ≠ some outside := by
  refine not_reads_within leads_typesWords.toIsWords htext ?_
  intro hread
  have hmiddle : Json.Mode.behind? Json.isUnescaped inside (' ' :: (typesWords ++ lead)) =
      some inside := by
    rcases hlead with rfl | rfl <;> decide
  have hlist : Json.Mode.behind? Json.isUnescaped inside (listed '"' names) = some inside :=
    hnames.behind?_listed (.inl rfl)
  have hend : typesEnd lead names = (' ' :: (typesWords ++ lead)) ++ listed '"' names := by
    rw [List.cons_append, List.append_assoc]
    rfl
  rw [hend, behind?_append, hmiddle, Option.bind_some, hlist] at hread
  cases hread

/-- A text that can be read behind the words is what the sentence itself puts behind them. -/
theorem rest_of_typesEnd (h : Json.text v ++ typesEnd lead names = p ++ (typesWords ++ rest))
    (hread : Json.Mode.behind? Json.isUnescaped outside rest = some outside) :
    rest = lead ++ listed '"' names := by
  rcases List.append_eq_append_iff.mp h with ⟨a, -, h⟩ | ⟨a, htext, h⟩
  · -- the words begin behind the text of the value
    rcases a with - | ⟨c, a⟩
    · exact absurd (List.cons.inj h).1 (by decide)
    · have hrest : typesWords ++ (lead ++ listed '"' names) = a ++ (typesWords ++ rest) :=
        (List.cons.inj h).2
      rcases a with - | ⟨c, a⟩
      · exact (List.append_cancel_left hrest).symm
      · have hlater : ("s not of type".toList ++ lead) ++ listed '"' names =
            a ++ (typesWords ++ rest) := by
          rw [List.append_assoc]
          exact (List.cons.inj hrest).2
        have hoccurs : typesWords <:+: ("s not of type".toList ++ lead) ++ listed '"' names :=
          ⟨a, rest, by rw [hlater, List.append_assoc]⟩
        have hfront : Text.contains typesWords ("s not of type".toList ++ lead) = false := by
          rcases hlead with rfl | rfl <;> decide
        rw [← Bool.not_eq_true, Text.contains_iff] at hfront
        exact absurd hoccurs (hnames.not_infix_listed hfront)
  · rcases List.append_eq_append_iff.mp h with ⟨b, rfl, rfl⟩ | ⟨b, hwords, hrest⟩
    · exact absurd hread (not_reads_value hnames hlead htext)
    · rcases a with - | ⟨c, a⟩
      · rcases b with - | ⟨c, b⟩
        · exact absurd hwords (by decide)
        · have hfirst : ' ' = c := (List.cons.inj hrest).1
          have hi : 'i' = c := (List.cons.inj hwords).1
          exact absurd (hfirst.trans hi.symm) (by decide)
      · -- a part of the words would stand at the end of the value, outside quotes
        have hbehind := Json.behind?_text v
        rw [htext, behind?_append, Option.bind_eq_some_iff] at hbehind
        obtain ⟨m, -, hbehind⟩ := hbehind
        have hpart : ∀ d ∈ c :: a, d ∈ typesWords := by
          rw [hwords]
          exact fun d hd => List.mem_append_left b hd
        have hi : 'i' = c := (List.cons.inj hwords).1
        have hinside := eq_inside_of_behind? (fun h => absurd (hpart _ h) (by decide))
          (fun h => absurd (hpart _ h) (by decide)) ⟨c, List.mem_cons_self, by rw [← hi]; rfl⟩ hbehind
        cases hinside

/-- The names come back from behind the words, whatever the text of the value says. -/
theorem firstAfter?_typesEnd (hne : names ≠ []) :
    firstAfter? typesWords typesAtEnd? (Json.text v ++ typesEnd lead names) = some names := by
  obtain ⟨n, r, rfl⟩ := List.exists_cons_of_ne_nil hne
  have hback := hnames.typesAtEnd?_listed hlead
  have hend : Json.text v ++ typesEnd lead (n :: r) =
      (Json.text v ++ [' ']) ++ (typesWords ++ (lead ++ listed '"' (n :: r))) := by
    rw [List.append_assoc]
    rfl
  obtain ⟨-, -, types, htypes, -⟩ := exists_firstAfter?_append (w := typesWords)
    (p := Json.text v ++ [' ']) hback
  rw [← hend] at htypes
  obtain ⟨p, rest, hmessage, hread⟩ := exists_of_firstAfter? htypes
  rw [rest_of_typesEnd hnames hlead hmessage (behind?_of_typesAtEnd? hread), hback] at hread
  rw [htypes, hread]

end

/-- The types that a list of types names come back. -/
theorem allowedTypes?_wrongTypes {types : List String} (hnames : AreTypes names)
    (h : f.message = (Complaint.wrongTypes names).message v)
    (hvalue : f.schemaValue.bind typesInSchema? = none) (htypes : f.allowedTypes? = some types) :
    types = names := by
  unfold allowedTypes? at htypes
  rw [hvalue, h, toList_message_wrongTypes] at htypes
  cases names with
  | nil =>
    obtain ⟨p, rest, hmessage, hread⟩ := exists_of_firstAfter? htypes
    rw [rest_of_typesEnd hnames.areLower (.inr rfl) hmessage (behind?_of_typesAtEnd? hread)] at hread
    cases hread
  | cons n r =>
    exact (Option.some.inj ((firstAfter?_typesEnd hnames.areLower (.inr rfl)
      (List.cons_ne_nil n r)).symm.trans htypes)).symm

end Failure

end RecordCheck
