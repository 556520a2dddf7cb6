import StyleMiner.Proofs.PrintedForms
import StyleMiner.Value.Canonical

/-! Components whose canonical form is its own. What is written for a number, a name, a color or a quoted text is
read as that again, but for a number that only prints as zero, a name that needs an escape, and quoted text with
both a line feed and a double quotation mark. -/

namespace StyleMiner

variable {t u property raw n name : Text} {kind : Kind} {v y : Double} {c : Component}

namespace Canonical

open Token

variable {p unit digits address : Text} {arguments : List Component} {m : Measure} {factor : Double}
  {base : String}

/-- a form that is its own canonical form for the property `p` in small letters -/
def Stays (p : Text) (c : Canonical) : Prop := ∀ property : Text, property.trim.lower = p →
  ofValue property c.text c.kind = c

theorem stays_of_ofText (htrim : Text.Trimmed t) (hkind : kind ≠ .separator)
    (hread : Component.ofText t = [c])
    (hc : c.isWhitespace = false) (h : ofComponent p t kind c = ⟨kind, t⟩) : Stays p ⟨kind, t⟩ := by
  rintro property rfl
  have hsingle : Component.single? [c] = some c := by simp [Component.single?, hc]
  rw [ofValue]
  dsimp only
  rw [htrim.trim, if_neg hkind, hread, hsingle]
  exact h

/-- Numerals have no white space at their ends, with or without something behind them. -/
theorem trimmed_numeral (h : SpellsNumber t v) (hu : Text.Trimmed u) : Text.Trimmed (t ++ u) := by
  have hhead : ∀ d ∈ t.head?, Text.isSpace d = false := by
    obtain ⟨d, w, rfl, hd, -⟩ := h.split
    intro e he
    obtain rfl := Option.some.inj he
    rcases hd with rfl | hd
    · decide
    · exact Text.isSpace_of_isDigit hd
  have hne : t ≠ [] := by
    obtain ⟨d, w, rfl, -⟩ := h.split
    exact List.cons_ne_nil d w
  cases u with
  | nil =>
    rw [List.append_nil]
    exact ⟨hhead, fun d hd => Text.isSpace_of_isDigit (h.isDigit_getLast d hd)⟩
  | cons d u => exact Text.trimmed_append hne (List.cons_ne_nil d u) hhead hu.getLast

theorem trimmed_nil : Text.Trimmed [] := ⟨fun _ hd => (nomatch hd), fun _ hd => (nomatch hd)⟩

theorem stays_number (hy : Double.Settled y) (h : ofNumber p y = ⟨.number, y.render⟩) :
    Stays p ⟨.number, y.render⟩ := by
  have hspell := spellsNumber_render hy
  have htrim := trimmed_numeral hspell trimmed_nil
  rw [List.append_nil] at htrim
  refine stays_of_ofText htrim (by decide) (Component.ofText_number hspell) rfl ?_
  rw [ofComponent]
  dsimp only
  rw [if_pos hy.isFinite, h]

theorem stays_percentage (hy : Double.Settled y) (h : ofPercentage p y = ⟨.percentage, y.render ++ ['%']⟩) :
    Stays p ⟨.percentage, y.render ++ ['%']⟩ := by
  have hspell := spellsNumber_render hy
  have hpercent : Text.Trimmed ['%'] := by
    constructor <;>
    · intro d hd
      cases hd
      rfl
  refine stays_of_ofText (trimmed_numeral hspell hpercent) (by decide)
    (Component.ofText_percentage hspell) rfl ?_
  rw [ofComponent]
  dsimp only
  rw [if_pos hy.isFinite, h]

theorem stays_dimension (hy : Double.Settled y) (hunit : Component.Legible unit) (hkind : kind ≠ .separator)
    (h : ofDimension y unit = ⟨kind, y.render ++ unit⟩) : Stays p ⟨kind, y.render ++ unit⟩ := by
  have hspell := spellsNumber_render hy
  refine stays_of_ofText (trimmed_numeral hspell hunit.trimmed) hkind
    (Component.ofText_dimension hspell hunit) rfl ?_
  rw [ofComponent]
  dsimp only
  rw [if_pos hy.isFinite, h]

theorem stays_ofColor (c : Color) : Stays p (ofColor c) := by
  obtain ⟨cs, hread, hcolor⟩ := Color.ofComponent?_render c
  have htrim : Text.Trimmed c.render := Text.trimmed_concat (c := 'r') rfl rfl rfl
  refine stays_of_ofText htrim (by decide) hread rfl ?_
  rw [ofComponent]
  dsimp only
  rw [if_neg (by decide), hcolor]
  rfl

/-- whether a component has a canonical form other than its text -/
def understood : Component → Bool
  | .token (.number v) | .token (.percentage v) | .token (.dimension v _) => v.isFinite
  | .token (.hash digits) => (Color.ofHex? digits).isSome
  | .token (.ident _) | .token (.string _) | .token (.url _) => true
  | .token _ | .block .. => false
  | .function name arguments =>
    if name.lower = "url".toList then
      match arguments.find? (!·.isWhitespace) with
      | some (.token (.string _)) => true
      | _ => false
    else (Color.ofComponent? (.function name arguments)).isSome

/-- the kind that a component is passed on as -/
def passedKind (kind : Kind) : Component → Kind
  | .function name _ => if name.lower = "url".toList then .url else .function
  | _ => kind

theorem ofComponent_of_not_understood (h : understood c = false) :
    ofComponent p raw kind c = ⟨passedKind kind c, raw.layout⟩ := by
  cases c with
  | token k =>
    cases k with
    | number v | percentage v | dimension v unit => simp_all [understood, ofComponent, passedKind]
    | hash digits =>
      have hnone : Color.ofHex? digits = none := by simpa [understood] using h
      rw [ofComponent, Color.ofComponent?, hnone]
      rfl
    | ident name | string content | url address => cases h
    | _ => rfl
  | block bracket contents => rfl
  | function name arguments =>
    rw [understood] at h
    split at h
    · next hname =>
      rw [ofComponent, passedKind, if_pos hname, if_pos hname]
      cases hfind : arguments.find? (!·.isWhitespace) with
      | none => rfl
      | some d =>
        rw [hfind] at h
        cases d with
        | token k =>
          cases k with
          | string address => cases h
          | _ => rfl
        | function name arguments => rfl
        | block bracket contents => rfl
    · next hname =>
      rw [ofComponent, passedKind, if_neg hname, if_neg hname,
        Option.not_isSome_iff_eq_none.1 (Bool.eq_false_iff.1 h)]
      rfl

/-- A text whose components are not understood is passed on as some kind: one component as that of its form, or
any other number of them as the kind it was read as. -/
inductive PassedOn (t : Text) (kind : Kind) : Kind → Prop where
  | single {c : Component} (hread : Component.single? (Component.ofText t) = some c)
      (hc : understood c = false) :
    PassedOn t kind (passedKind kind c)
  | several (hread : Component.single? (Component.ofText t) = none) : PassedOn t kind kind

theorem PassedOn.ofValue {k : Kind} (hkind : kind ≠ .separator) (h : PassedOn raw.trim kind k) :
    ofValue property raw kind = ⟨k, raw.trim.layout⟩ := by
  rw [Canonical.ofValue, if_neg hkind]
  cases h with
  | single hread hc => rw [hread, ← ofComponent_of_not_understood hc]
  | several hread => rw [hread]

/-- A first component that is not understood decides for all of them. -/
theorem passedOn_of_cons {cs : List Component} (hread : Component.ofText t = c :: cs)
    (hspace : c.isWhitespace = false)
    (hc : understood c = false) (hkind : passedKind kind c = kind) : PassedOn t kind kind := by
  have hfilter : (c :: cs).filter (!·.isWhitespace) = c :: cs.filter (!·.isWhitespace) := by
    rw [List.filter_cons_of_pos (by simp [hspace])]
  cases hcs : cs.filter (!·.isWhitespace) with
  | nil =>
    have hsingle : Component.single? (Component.ofText t) = some c := by
      rw [hread, Component.single?, hfilter, hcs]
    have hon : PassedOn t kind (passedKind kind c) := .single hsingle hc
    rwa [hkind] at hon
  | cons d ds => exact .several (by rw [hread, Component.single?, hfilter, hcs])

theorem PassedOn.ne_separator {k : Kind} (h : PassedOn t kind k) (hkind : kind ≠ .separator) :
    k ≠ .separator := by
  cases h with
  | several hread => exact hkind
  | @single c hread hc =>
    cases c with
    | token k => exact hkind
    | block bracket contents => exact hkind
    | function name arguments =>
      rw [passedKind]
      split <;> decide

theorem stays_of_passedOn (htrim : Text.Trimmed t) (hkind : kind ≠ .separator) (h : PassedOn t kind kind)
    (hlayout : t.layout = t) : Stays p ⟨kind, t⟩ := by
  rintro property -
  rw [← htrim.trim] at h
  rw [h.ofValue hkind, htrim.trim, hlayout]

/-- Between double quotation marks a text without any is laid out as it is. -/
theorem layoutFrom_quotedText (h : '"' ∉ t) (last : Option Char) (u : Text) :
    Text.layoutFrom none false last (t.quoted ++ u) = t.quoted ++ Text.layoutFrom none false (some '"') u := by
  have hescaped : '"' ∉ escaped t := by
    intro hmem
    obtain ⟨d, hd, hin⟩ := List.mem_flatMap.1 hmem
    split at hin
    · rcases List.mem_cons.1 hin with hslash | hin
      · cases hslash
      · exact h (List.mem_singleton.1 hin ▸ hd)
    · exact h (List.mem_singleton.1 hin ▸ hd)
  rw [quoted_eq, List.cons_append, List.append_assoc, List.singleton_append, Text.layoutFrom_kept (c := '"') rfl]
  change '"' :: Text.layoutFrom (some '"') false (some '"') (escaped t ++ '"' :: u) = _
  rw [Text.layoutFrom_body hescaped, List.cons_append, List.append_assoc]
  rfl

theorem layout_quoted (h : '"' ∉ t) : t.quoted.layout = t.quoted := by
  have hlayout := layoutFrom_quotedText h none []
  rwa [List.append_nil, show Text.layoutFrom none false (some '"') [] = [] from rfl, List.append_nil] at hlayout

theorem layout_ofUrl (h : '"' ∉ t.trim) : (ofUrl t).text.layout = (ofUrl t).text := by
  have hopening : ∀ d ∈ "url(".toList, Text.Kept d := by
    have hall : "url(".toList.all (fun d => !Text.isSpace d && !Text.isQuote d && d.toLower == d) = true := rfl
    intro d hd
    simpa [Text.Kept, and_assoc] using List.all_eq_true.1 hall d hd
  change Text.layoutFrom none false none ("url(".toList ++ t.trim.quoted ++ [')']) = _
  rw [List.append_assoc, Text.layoutFrom_run hopening, layoutFrom_quotedText h, ← List.append_assoc]
  rfl

/-- The text of a string stays: read as the string, or, if a line feed spoils it, passed on. -/
theorem stays_string (h : '\n' ∉ t ∨ '"' ∉ t) : Stays p ⟨.string, t.quoted⟩ := by
  have htrim : Text.Trimmed t.quoted := Text.trimmed_concat (c := '"') rfl rfl rfl
  by_cases hfeed : '\n' ∈ t
  · obtain ⟨cs, hread⟩ := Component.ofText_spoilt hfeed
    exact stays_of_passedOn htrim (by decide) (passedOn_of_cons hread rfl rfl rfl)
      (layout_quoted (h.resolve_left (not_not_intro hfeed)))
  · exact stays_of_ofText htrim (by decide) (Component.ofText_quoted hfeed) rfl rfl

theorem stays_ofUrl (h : '\n' ∉ t.trim ∨ '"' ∉ t.trim) : Stays p (ofUrl t) := by
  have htrim : Text.Trimmed (ofUrl t).text := Text.trimmed_concat (c := 'u') rfl rfl rfl
  by_cases hfeed : '\n' ∈ t.trim
  · obtain ⟨ys, cs, hread⟩ := Component.ofText_spoiltUrl hfeed
    exact stays_of_passedOn htrim (by decide) (passedOn_of_cons hread rfl rfl rfl)
      (layout_ofUrl (h.resolve_left (not_not_intro hfeed)))
  · refine stays_of_ofText htrim (by decide) (Component.ofText_url hfeed) rfl ?_
    have hform : ofUrl t.trim = ofUrl t := by rw [ofUrl, Text.trim_trim, ofUrl]
    exact hform

theorem stays_keyword (hn : Name n) (htrim : Text.Trimmed n) (h : ofKeyword p n = ⟨.keyword, n⟩) :
    Stays p ⟨.keyword, n⟩ :=
  stays_of_ofText htrim (by decide) (Component.ofText_name hn) rfl h

/-- a number that prints as zero without being zero -/
def Vanishes (v : Double) : Prop := v.toPlaces.isZero = true ∧ v.isZero = false

theorem settled_zero : Double.Settled (.zero false) := .mk (s := false) (N := 0) (Nat.zero_le _) (by simp)

theorem render_zero : (Double.zero false).render = ['0'] := by decide +kernel

theorem ofNumber_of_number (h : v.isZero = false ∨ (ofNumber p (.zero false)).kind = .number) :
    ofNumber p v = ⟨.number, v.render⟩ := by
  rcases h with h | h
  · simp [ofNumber, h]
  · have hzero : (Double.zero false).isZero = true := rfl
    simp only [ofNumber, hzero, Bool.true_and] at h
    split at h
    · cases h
    split at h
    · cases h
    split at h
    · cases h
    next htimed hangled hlength => simp [ofNumber, htimed, hangled, hlength]

theorem ofPercentage_of_percentage
    (h : v.isZero = false ∨ (ofPercentage p (.zero false)).kind = .percentage) :
    ofPercentage p v = ⟨.percentage, v.render ++ ['%']⟩ := by
  rcases h with h | h
  · simp [ofPercentage, h]
  · have hzero : (Double.zero false).isZero = true := rfl
    simp only [ofPercentage, hzero, Bool.true_and] at h
    split at h
    · cases h
    next hlength => simp [ofPercentage, hlength]

theorem stays_zeroDimension {u : Text} (hunit : Component.Legible u) (hkind : kind ≠ .separator)
    (h : ofDimension (.zero false) u = ⟨kind, '0' :: u⟩) : Stays p ⟨kind, '0' :: u⟩ := by
  have hstays := stays_dimension (p := p) settled_zero hunit hkind (by rw [h, render_zero]; rfl)
  rwa [render_zero] at hstays

theorem stays_zeroLength : Stays p zeroLength :=
  stays_zeroDimension (u := "px".toList) (by decide) (by decide) (by decide +kernel)

theorem ofNumber_zero (h : v.isZero = true) (hnumber : (ofNumber p (.zero false)).kind ≠ .number) :
    ofNumber p v = ⟨.time, "0ms".toList⟩ ∨ ofNumber p v = ⟨.angle, "0deg".toList⟩ ∨
      ofNumber p v = zeroLength := by
  have hzero : (Double.zero false).isZero = true := rfl
  simp only [ofNumber, hzero, h, Bool.true_and] at hnumber ⊢
  split
  · exact .inl rfl
  split
  · exact .inr (.inl rfl)
  split
  · exact .inr (.inr rfl)
  next htimed hangled hlength => simp [htimed, hangled, hlength] at hnumber

theorem stays_ofNumber (hv : v.Fits) (hzero : Vanishes v → (ofNumber p (.zero false)).kind = .number) :
    Stays p (ofNumber p v) := by
  obtain ⟨y, hy, hrender, hiszero, -⟩ := hv.exists_settled
  by_cases hnumber : (ofNumber p (.zero false)).kind = .number
  · rw [ofNumber_of_number (.inr hnumber), hrender]
    exact stays_number hy (ofNumber_of_number (.inr hnumber))
  cases hv0 : v.isZero with
  | true =>
    rcases ofNumber_zero hv0 hnumber with h | h | h <;> rw [h]
    · exact stays_zeroDimension (u := "ms".toList) (by decide) (by decide) (by decide +kernel)
    · exact stays_zeroDimension (u := "deg".toList) (by decide) (by decide) (by decide +kernel)
    · exact stays_zeroLength
  | false =>
    have hy0 : y.isZero = false := by
      rw [← hiszero, Bool.eq_false_iff]
      exact fun h => hnumber (hzero ⟨h, hv0⟩)
    rw [ofNumber_of_number (.inl hv0), hrender]
    exact stays_number hy (ofNumber_of_number (.inl hy0))

theorem stays_ofPercentage (hv : v.Fits)
    (hzero : Vanishes v → (ofPercentage p (.zero false)).kind = .percentage) :
    Stays p (ofPercentage p v) := by
  obtain ⟨y, hy, hrender, hiszero, -⟩ := hv.exists_settled
  by_cases hpercentage : (ofPercentage p (.zero false)).kind = .percentage
  · rw [ofPercentage_of_percentage (.inr hpercentage), hrender]
    exact stays_percentage hy (ofPercentage_of_percentage (.inr hpercentage))
  cases hv0 : v.isZero with
  | true =>
    have hlength : zeroIsLength p = true := by
      by_contra h
      exact hpercentage (by simp [ofPercentage, h])
    rw [ofPercentage, hv0, hlength]
    exact stays_zeroLength
  | false =>
    have hy0 : y.isZero = false := by
      rw [← hiszero, Bool.eq_false_iff]
      exact fun h => hpercentage (hzero ⟨h, hv0⟩)
    rw [ofPercentage_of_percentage (.inl hv0), hrender]
    exact stays_percentage hy (ofPercentage_of_percentage (.inl hy0))

/-- A base unit converts to itself, is read as it is written, and is the one of its measure. -/
theorem baseUnit (h : Measure.conversion? unit = some (m, factor, base)) :
    Measure.conversion? base.toList = some (m, .ofNat 1, base) ∧ Component.Legible base.toList ∧
      (m = .length → base = "px") := by
  have hall : ∀ e ∈ Measure.convertible,
      Measure.conversion? e.2.2.2.toList = some (e.2.1, .ofNat 1, e.2.2.2) ∧
      Component.Legible e.2.2.2.toList ∧ (e.2.1 = .length → e.2.2.2 = "px") := by decide +kernel
  obtain ⟨e, hfind, he⟩ := Option.map_eq_some_iff.1 h
  have hbase := hall e (List.mem_of_find?_eq_some hfind)
  rw [he] at hbase
  exact hbase

theorem legible_relative (h : Measure.relativeLengths.any (·.toList == unit.lower) = true) :
    Component.Legible unit.lower := by
  have hall : ∀ name ∈ Measure.relativeLengths, Component.Legible name.toList := by decide +kernel
  obtain ⟨name, hname, heq⟩ := List.any_eq_true.1 h
  rw [← beq_iff_eq.1 heq]
  exact hall name hname

theorem conversion?_lower (unit : Text) : Measure.conversion? unit.lower = Measure.conversion? unit := by
  rw [Measure.conversion?, Text.lower_lower, Measure.conversion?]

theorem ofUnit?_lower (unit : Text) : Measure.ofUnit? unit.lower = Measure.ofUnit? unit := by
  rw [Measure.ofUnit?, conversion?_lower, Text.lower_lower, Measure.ofUnit?]

theorem ofDimension_eq (h : ¬ (v.isZero = true ∧ Measure.ofUnit? unit = some .length)) :
    ofDimension v unit =
    ⟨(Measure.ofUnit? unit).elim .dimension Measure.kind,
      (Measure.toBase v unit).1.render ++ (Measure.toBase v unit).2⟩ := by
  have hcond : (v.isZero && Measure.ofUnit? unit == some .length) = false := by
    rw [Bool.eq_false_iff, ne_eq, Bool.and_eq_true, beq_iff_eq]
    exact h
  rw [ofDimension]
  dsimp only
  rw [hcond, if_neg Bool.false_ne_true]

theorem kind_ne_separator (o : Option Measure) : o.elim .dimension Measure.kind ≠ Kind.separator := by
  cases o with
  | none => decide
  | some m => cases m <;> decide

/-- a unit with a base unit -/
theorem stays_converted {m : Measure} {factor : Double} {base : String}
    (hconversion : Measure.conversion? unit = some (m, factor, base))
    (hv : (Measure.toBase v unit).1.Fits)
      (hlength : ¬ (v.isZero = true ∧ Measure.ofUnit? unit = some .length)) :
    Stays p (ofDimension v unit) := by
  obtain ⟨y, hy, hrender, -⟩ := hv.exists_settled
  obtain ⟨hbase, hlegible, hpx⟩ := baseUnit hconversion
  have hmeasure : Measure.ofUnit? unit = some m := by rw [Measure.ofUnit?, hconversion]
  have hmeasure' : Measure.ofUnit? base.toList = some m := by rw [Measure.ofUnit?, hbase]
  have hto : (Measure.toBase v unit).2 = base.toList := by rw [Measure.toBase, hconversion]
  have hto' : Measure.toBase y base.toList = (y, base.toList) := by
    rw [Measure.toBase, hbase]
    exact congrArg (·, base.toList) hy.mul_ofNat_one
  rw [ofDimension_eq hlength, hrender, hmeasure, hto]
  by_cases hy0 : y.isZero = true ∧ m = .length
  · obtain ⟨hy0, rfl⟩ := hy0
    rw [hy.eq_zero hy0, hpx rfl, render_zero]
    exact stays_zeroLength
  · refine stays_dimension hy hlegible (kind_ne_separator _) ?_
    rw [ofDimension_eq (by rw [hmeasure']; simpa using hy0), hmeasure', hto']

/-- a unit that stays as it is -/
theorem stays_unconverted (hconversion : Measure.conversion? unit = none)
    (hv : (Measure.toBase v unit).1.Fits)
    (hlength : ¬ (v.isZero = true ∧ Measure.ofUnit? unit = some .length))
    (hunit : Measure.ofUnit? unit = none → Component.Legible unit.lower)
    (hzero : Vanishes v → Measure.ofUnit? unit = none) : Stays p (ofDimension v unit) := by
  obtain ⟨y, hy, hrender, hiszero, -⟩ := hv.exists_settled
  have hto (x : Double) : Measure.toBase x unit.lower = (x, unit.lower) := by
    rw [Measure.toBase, conversion?_lower, hconversion]
    exact congrArg (x, ·) (Text.lower_lower unit)
  have hto' : Measure.toBase v unit = (v, unit.lower) := by rw [Measure.toBase, hconversion]
  have hlegible : Component.Legible unit.lower := by
    rw [Measure.ofUnit?, hconversion] at hunit
    by_cases hrelative : Measure.relativeLengths.any (·.toList == unit.lower) = true
    · exact legible_relative hrelative
    · exact hunit (if_neg hrelative)
  have hy0 : ¬ (y.isZero = true ∧ Measure.ofUnit? unit.lower = some .length) := by
    rintro ⟨hy0, hmeasure⟩
    rw [ofUnit?_lower] at hmeasure
    have hv0 : v.isZero = false := Bool.eq_false_iff.2 fun h => hlength ⟨h, hmeasure⟩
    rw [hto'] at hiszero
    rw [hzero ⟨hiszero.trans hy0, hv0⟩] at hmeasure
    cases hmeasure
  rw [ofDimension_eq hlength, hrender, hto']
  refine stays_dimension hy hlegible (kind_ne_separator _) ?_
  rw [ofDimension_eq hy0, ofUnit?_lower, hto]

/-- Only a length that does not convert has to keep from vanishing. -/
theorem stays_ofDimension (hv : (Measure.toBase v unit).1.Fits)
    (hunit : Measure.ofUnit? unit = none → Component.Legible unit.lower)
    (hzero : Vanishes v → Measure.conversion? unit = none → Measure.ofUnit? unit = none) :
    Stays p (ofDimension v unit) := by
  by_cases hlength : v.isZero = true ∧ Measure.ofUnit? unit = some .length
  · have hform : ofDimension v unit = zeroLength := by simp [ofDimension, hlength]
    rw [hform]
    exact stays_zeroLength
  cases hconversion : Measure.conversion? unit with
  | some entry => exact stays_converted hconversion hv hlength
  | none => exact stays_unconverted hconversion hv hlength hunit fun h => hzero h hconversion

theorem stays_position {q : Double} {keyword : Text} (h : position? keyword = some q) :
    Stays p (ofPercentage p q) := by
  have hall : ∀ x ∈ [Double.zero false, .ofNat 50, .ofNat 100], x.isFinite = true ∧
      x.isNegative = false ∧ 0 ≤ x.value ∧ x.value ≤ 100 ∧ x.toPlaces.isZero = x.isZero := by decide +kernel
  have hq : q ∈ [Double.zero false, .ofNat 50, .ofNat 100] := by
    rw [position?] at h
    split at h
    · simp [← Option.some.inj h]
    split at h
    · simp [← Option.some.inj h]
    split at h
    · simp [← Option.some.inj h]
    · cases h
  obtain ⟨hfinite, -, hlow, hhigh, hiszero⟩ := hall q hq
  refine stays_ofPercentage ⟨hfinite, ?_⟩ fun h => ?_
  · rw [abs_of_nonneg hlow]
    exact hhigh.trans (by norm_num)
  · rw [Vanishes, hiszero, h.2] at h
    exact absurd h.1 Bool.false_ne_true

theorem stays_weight {w keyword : Text} (hp : p = "font-weight".toList) (h : weight? keyword = some w) :
    Stays p ⟨.number, w⟩ := by
  subst hp
  have hstays (N : Nat) (hN : N ≤ Double.placeLimit) (htext : (Double.place false N).render = w)
      (hform : ofNumber "font-weight".toList (Double.place false N) =
        ⟨.number, (Double.place false N).render⟩) :
      Stays "font-weight".toList ⟨.number, w⟩ := htext ▸ stays_number (.mk hN (by simp)) hform
  rw [weight?] at h
  split at h
  · obtain rfl := Option.some.inj h
    exact hstays 4000000 (by decide) (by decide +kernel) (by decide +kernel)
  split at h
  · obtain rfl := Option.some.inj h
    exact hstays 7000000 (by decide) (by decide +kernel) (by decide +kernel)
  · cases h

/-- The keywords that stand for something else stand for forms that stay. -/
theorem stays_ofKeyword (hn : Name name) (htrim : Text.Trimmed name) : Stays p (ofKeyword p name) := by
  rw [ofKeyword]
  split
  · next q hposition =>
    split at hposition
    · exact stays_position hposition
    · cases hposition
  · next w hposition hweight =>
    split at hweight
    · next hp => exact stays_weight hp hweight
    · cases hweight
  · exact stays_ofColor _
  · next hposition hweight hcolor =>
    refine stays_keyword hn.lower htrim.lower ?_
    rw [ofKeyword, Text.lower_lower, hposition, hweight, hcolor]

/-- The components whose canonical form is read as that form: no number is too large for its decimal places
or prints as a zero that its property takes for a length, a time or an angle, no name or unit needs an
escape, and no quoted text holds both a line feed and a double quotation mark. -/
inductive Faithful (p : Text) : Component → Prop where
  | number {v : Double} (hv : v.Fits) (hzero : Vanishes v → (ofNumber p (.zero false)).kind = .number) :
    Faithful p (.token (.number v))
  | percentage {v : Double} (hv : v.Fits)
    (hzero : Vanishes v → (ofPercentage p (.zero false)).kind = .percentage) :
      Faithful p (.token (.percentage v))
  | dimension {v : Double} {unit : Text} (hfinite : v.isFinite = true) (hv : (Measure.toBase v unit).1.Fits)
    (hunit : Measure.ofUnit? unit = none → Component.Legible unit.lower)
    (hzero : Vanishes v → Measure.conversion? unit = none → Measure.ofUnit? unit = none) :
    Faithful p (.token (.dimension v unit))
  | keyword {name : Text} (hname : Name name) (htrim : Text.Trimmed name) :
      Faithful p (.token (.ident name))
  | hash {digits : Text} (hcolor : (Color.ofHex? digits).isSome = true) : Faithful p (.token (.hash digits))
  | string {content : Text} (hfeed : '\n' ∉ content ∨ '"' ∉ content) : Faithful p (.token (.string content))
  | url {address : Text} (hfeed : '\n' ∉ address.trim ∨ '"' ∉ address.trim) : Faithful p (.token (.url address))
  | quotedUrl {name address : Text} {arguments : List Component} (hname : name.lower = "url".toList)
    (hfind : arguments.find? (!·.isWhitespace) = some (.token (.string address)))
    (hfeed : '\n' ∉ address.trim ∨ '"' ∉ address.trim) : Faithful p (.function name arguments)
  | color {name : Text} {arguments : List Component} (hname : name.lower ≠ "url".toList)
    (hcolor : (Color.ofComponent? (.function name arguments)).isSome = true) :
      Faithful p (.function name arguments)

theorem Faithful.stays (h : Faithful p c) (raw : Text) (kind : Kind) :
    Stays p (ofComponent p raw kind c) := by
  cases h with
  | number hv hzero =>
    rw [ofComponent, if_pos hv.finite]
    exact stays_ofNumber hv hzero
  | percentage hv hzero =>
    rw [ofComponent, if_pos hv.finite]
    exact stays_ofPercentage hv hzero
  | dimension hfinite hv hunit hzero =>
    rw [ofComponent, if_pos hfinite]
    exact stays_ofDimension hv hunit hzero
  | keyword hname htrim => exact stays_ofKeyword hname htrim
  | hash hcolor =>
    obtain ⟨color, hcolor⟩ := Option.isSome_iff_exists.1 hcolor
    rw [ofComponent, Color.ofComponent?, hcolor]
    exact stays_ofColor color
  | string hfeed => exact stays_string hfeed
  | url hfeed => exact stays_ofUrl hfeed
  | quotedUrl hname hfind hfeed =>
    rw [ofComponent, if_pos hname, hfind]
    exact stays_ofUrl hfeed
  | color hname hcolor =>
    obtain ⟨color, hcolor⟩ := Option.isSome_iff_exists.1 hcolor
    rw [ofComponent, if_neg hname, hcolor]
    exact stays_ofColor color

end Canonical
end StyleMiner
