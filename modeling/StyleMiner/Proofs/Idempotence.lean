import StyleMiner.Proofs.Outlines

/-! The canonical form of a canonical form. A faithful component is written so that it is read again, and a text that
is passed on is laid out as a text of the same outline, so it is passed on again as the same kind. Besides components
that are not faithful this leaves out texts that are passed on without being clear. -/

namespace StyleMiner

variable {t u property raw : Text} {kind : Kind} {c : Component}

namespace Canonical

open Component (outline)
open Token (SpellsNumber)

theorem understood_lowered (c : Component) : understood c.lowered = understood c := by
  cases c with
  | token k =>
    cases k with
    | hash digits => rw [Component.lowered, Token.lowered, understood, Color.ofHex?_lower, understood]
    | _ => rfl
  | block bracket contents => rfl
  | function name arguments =>
    have hfind : (arguments.map Component.lowered).find? (!·.isWhitespace) =
        (arguments.find? (!·.isWhitespace)).map Component.lowered := by
      rw [List.find?_map]
      simp only [Function.comp_def, Component.isWhitespace_lowered]
    rw [Component.lowered, Component.loweredAll_eq, understood, understood, Text.lower_lower, hfind, Color.ofComponent?,
      Color.ofFunction?_lowered, Color.ofComponent?]
    split
    · cases arguments.find? (!·.isWhitespace) with
      | none => rfl
      | some d =>
        cases d with
        | token k => cases k <;> rfl
        | function name arguments => rfl
        | block bracket contents => rfl
    · rfl

theorem find?_packedAll (cs : List Component) : (Component.packedAll cs).find? (!·.isWhitespace) =
    (cs.find? (!·.isWhitespace)).map Component.packed := by
  induction cs with
  | nil => rfl
  | cons c cs ih =>
    rw [Component.packedAll]
    cases hspace : c.isWhitespace with
    | true => rw [List.find?_cons_of_neg (by simp [hspace]), ← ih, if_pos rfl]
    | false =>
      rw [List.find?_cons_of_pos (by simp [hspace]), if_neg Bool.false_ne_true,
        List.find?_cons_of_pos (by simp [Component.isWhitespace_packed, hspace]), Option.map_some]

theorem arguments?_packedAll (cs : List Component) :
    Color.arguments? (Component.packedAll cs) = Color.arguments? cs := by
  induction cs with
  | nil => rfl
  | cons c cs ih =>
    cases c with
    | token k =>
      cases k with
      | whitespace => exact ih
      | number | percentage | dimension | comma | delim =>
        change Color.arguments? (Component.packed _ :: Component.packedAll cs) = _
        rw [Component.packed, Color.arguments?.eq_def, Color.arguments?.eq_def]
        simp only [ih]
      | _ => rfl
    | function name arguments => rfl
    | block bracket contents => rfl

theorem understood_packed (c : Component) : understood c.packed = understood c := by
  cases c with
  | token k => rfl
  | block bracket contents => rfl
  | function name arguments =>
    rw [Component.packed, understood, understood, find?_packedAll, Color.ofComponent?, Color.ofFunction?,
      arguments?_packedAll, Color.ofComponent?, Color.ofFunction?]
    split
    · cases arguments.find? (!·.isWhitespace) with
      | none => rfl
      | some d => cases d <;> rfl
    · rfl

theorem passedKind_lowered (kind : Kind) (c : Component) : passedKind kind c.lowered = passedKind kind c := by
  cases c with
  | function name arguments => rw [Component.lowered, passedKind, Text.lower_lower, passedKind]
  | _ => rfl

theorem passedKind_packed (kind : Kind) (c : Component) : passedKind kind c.packed = passedKind kind c := by
  cases c <;> rfl

theorem passedKind_passedKind (kind : Kind) (c : Component) : passedKind (passedKind kind c) c = passedKind kind c := by
  cases c <;> rfl

theorem single?_packedAll (cs : List Component) : Component.single? (Component.packedAll cs) =
    (Component.single? cs).map Component.packed := by
  have hfilter : (Component.packedAll cs).filter (!·.isWhitespace) =
      (cs.filter (!·.isWhitespace)).map Component.packed := by
    rw [Component.packedAll_eq, List.filter_map, Function.comp_def]
    simp only [Component.isWhitespace_packed, List.filter_filter, Bool.and_self]
  rw [Component.single?, Component.single?, hfilter]
  generalize cs.filter (!·.isWhitespace) = ds
  rcases ds with _ | ⟨c, _ | ⟨d, ds⟩⟩ <;> rfl

theorem single?_outline (t : Text) : Component.single? (outline t) =
    (Component.single? (Component.ofText t)).map fun c => c.lowered.packed := by
  rw [outline, single?_packedAll, Component.single?_lowered, Option.map_map]
  rfl

/-- The outline says as what a text is passed on. -/
theorem PassedOn.sameOutline {k : Kind} (h : outline t = outline u) (ht : PassedOn t kind k) : PassedOn u kind k := by
  have hsame := single?_outline u
  rw [← h, single?_outline] at hsame
  cases ht with
  | @single c hread hc =>
    rw [hread] at hsame
    obtain ⟨d, hd, heq⟩ := Option.map_eq_some_iff.1 hsame.symm
    have hunderstood : understood d = false := by
      rw [← understood_lowered, ← understood_packed, heq, understood_packed, understood_lowered, hc]
    have hkind : passedKind kind d = passedKind kind c := by
      rw [← passedKind_lowered, ← passedKind_packed, heq, passedKind_packed, passedKind_lowered]
    exact hkind ▸ .single hd hunderstood
  | several hread =>
    rw [hread] at hsame
    exact .several (Option.map_eq_none_iff.1 hsame.symm)

theorem PassedOn.again {k : Kind} (h : PassedOn t kind k) : PassedOn t k k := by
  cases h with
  | @single c hread hc =>
    have hon : PassedOn t (passedKind kind c) (passedKind (passedKind kind c) c) := .single hread hc
    rwa [passedKind_passedKind] at hon
  | several hread => exact .several hread

/-- A text that is clear in small letters and passed on is passed on again when it is laid out, as the same kind. -/
theorem PassedOn.layout {k : Kind} (h : PassedOn t kind k) (hclear : Token.clear t.lower = true) :
    PassedOn t.layout k k :=
  (h.sameOutline (Component.outline_layout hclear).symm).again

/-- The values that a second time changes nothing of: separators, faithful components, and texts that are passed on
and clear in small letters. -/
inductive Settles (property raw : Text) (kind : Kind) : Prop where
  | separator (hkind : kind = .separator)
  | faithful {c : Component} (hread : Component.single? (Component.ofText raw.trim) = some c)
    (hc : Faithful property.trim.lower c)
  | passedOn {k : Kind} (hpassed : PassedOn raw.trim kind k) (hclear : Token.clear raw.trim.lower = true)

/-- The canonical form of a value is its own canonical form. -/
theorem ofValue_idempotent (h : Settles property raw kind) :
    ofValue property (ofValue property raw kind).text (ofValue property raw kind).kind =
      ofValue property raw kind := by
  by_cases hkind : kind = .separator
  · subst hkind
    have hform (t : Text) : ofValue property t .separator = ⟨.separator, t.trim⟩ := by
      rw [ofValue, if_pos rfl]
    rw [hform]
    dsimp only
    rw [hform, Text.trim_trim]
  cases h with
  | separator h => exact absurd h hkind
  | @faithful c hread hc =>
    have hform : ofValue property raw kind = ofComponent property.trim.lower raw.trim kind c := by
      rw [ofValue, if_neg hkind, hread]
    rw [hform]
    exact hc.stays _ _ property rfl
  | @passedOn k hpassed hclear =>
    rw [hpassed.ofValue hkind]
    have hstays : Stays property.trim.lower ⟨k, raw.trim.layout⟩ := stays_of_passedOn (Text.trimmed_trim raw).layout
      (hpassed.ne_separator hkind) (hpassed.layout hclear) (Text.layout_layout _)
    exact hstays property rfl

/-- White space, capitals and a zero too many, in a length and in a function that is passed on: the second time there
is nothing left to do. -/
theorem ofValue_idempotent_widths :
    (Settles "margin".toList " 1.50PX ".toList .length ∧
      ofValue "margin".toList (ofValue "margin".toList " 1.50PX ".toList .length).text
        (ofValue "margin".toList " 1.50PX ".toList .length).kind =
          ofValue "margin".toList " 1.50PX ".toList .length) ∧
    Settles "width".toList " Calc( 1PX  + 2px ) ".toList .length ∧
      ofValue "width".toList (ofValue "width".toList " Calc( 1PX  + 2px ) ".toList .length).text
        (ofValue "width".toList " Calc( 1PX  + 2px ) ".toList .length).kind =
          ofValue "width".toList " Calc( 1PX  + 2px ) ".toList .length := by
  have hspell : SpellsNumber "1.50".toList (.finite false 6755399441055744 (-52)) :=
    ⟨by decide +kernel, false, ['1'], ['5', '0'], rfl, by simp, by decide, by decide⟩
  have hread : Component.ofText "1.50PX".toList =
      [.token (.dimension (.finite false 6755399441055744 (-52)) "PX".toList)] :=
    Component.ofText_dimension (u := "PX".toList) hspell (by decide)
  have hmargin : Settles "margin".toList " 1.50PX ".toList .length := by
    refine .faithful (c := .token (.dimension (.finite false 6755399441055744 (-52)) "PX".toList)) ?_ ?_
    · have htrim : Text.trim " 1.50PX ".toList = "1.50PX".toList := by decide
      rw [htrim, hread]
      rfl
    · refine .dimension rfl ⟨by decide +kernel, ?_⟩ (fun h => ?_) (fun h => ?_)
      · rw [abs_le]
        decide +kernel
      · exact absurd h (by decide +kernel)
      · exact absurd h.1 (by decide +kernel)
  have htokens : tokenize "Calc( 1PX  + 2px )".toList = [⟨.function "Calc".toList, ⟨0, 1, 1⟩, 5⟩,
      ⟨.whitespace, ⟨5, 1, 6⟩, 6⟩, ⟨.dimension (.finite false 4503599627370496 (-52)) "PX".toList, ⟨6, 1, 7⟩, 9⟩,
      ⟨.whitespace, ⟨9, 1, 10⟩, 11⟩, ⟨.delim '+', ⟨11, 1, 12⟩, 12⟩, ⟨.whitespace, ⟨12, 1, 13⟩, 13⟩,
      ⟨.dimension (.finite false 4503599627370496 (-51)) "px".toList, ⟨13, 1, 14⟩, 16⟩,
      ⟨.whitespace, ⟨16, 1, 17⟩, 17⟩, ⟨.closing .paren, ⟨17, 1, 18⟩, 18⟩, ⟨.eof, ⟨18, 1, 19⟩, 18⟩] := by
    decide +kernel
  have htrim : Text.trim " Calc( 1PX  + 2px ) ".toList = "Calc( 1PX  + 2px )".toList := by decide
  have hpassed : PassedOn (Text.trim " Calc( 1PX  + 2px ) ".toList) .length .function := by
    rw [htrim]
    refine .single (c := .function "Calc".toList [.token .whitespace,
      .token (.dimension (.finite false 4503599627370496 (-52)) "PX".toList), .token .whitespace,
      .token (.delim '+'), .token .whitespace,
      .token (.dimension (.finite false 4503599627370496 (-51)) "px".toList), .token .whitespace]) ?_ (by decide)
    rw [Component.ofText, htokens]
    rfl
  have hclear : Token.clear (Text.lower (Text.trim " Calc( 1PX  + 2px ) ".toList)) = true := by
    rw [htrim]
    decide +kernel
  have hwidth : Settles "width".toList " Calc( 1PX  + 2px ) ".toList .length := .passedOn hpassed hclear
  exact ⟨⟨hmargin, ofValue_idempotent hmargin⟩, hwidth, ofValue_idempotent hwidth⟩

/-- A length that prints as zero is the number zero, which the second time is a length. -/
theorem ofValue_not_idempotent : ¬ ∀ (property raw : Text) (kind : Kind),
    ofValue property (ofValue property raw kind).text (ofValue property raw kind).kind =
      ofValue property raw kind := by
  intro h
  have hsmall : SpellsNumber "0.00001".toList (.finite false 5902958103587057 (-69)) :=
    ⟨by decide +kernel, false, ['0'], "00001".toList, rfl, by simp, by decide, by decide⟩
  have hzero : SpellsNumber ['0'] (.zero false) :=
    ⟨by decide +kernel, false, ['0'], [], rfl, by simp, by decide, by decide⟩
  have hfirst : ofValue "margin".toList "0.00001".toList .number = ⟨.number, ['0']⟩ := by
    rw [ofValue, Text.Trimmed.trim (by decide), if_neg (by decide), Component.ofText_number hsmall]
    decide +kernel
  have hsecond : ofValue "margin".toList ['0'] .number = zeroLength := by
    rw [ofValue, Text.Trimmed.trim (by decide), if_neg (by decide), Component.ofText_number hzero]
    decide +kernel
  have hsame := h "margin".toList "0.00001".toList .number
  rw [hfirst, hsecond] at hsame
  exact absurd hsame (by decide)

end Canonical
end StyleMiner
