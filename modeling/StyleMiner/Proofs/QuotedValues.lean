import StyleMiner.Proofs.Nesting
import StyleMiner.Proofs.QuotedText
import StyleMiner.Value.Canonical

/-! Quoted text and addresses in canonical forms. Equal canonical forms are of values that hold the same strings
and addresses, letter case included, where values that are passed on as text are clear and the name of an address
has one string behind it. -/

namespace StyleMiner

/-- what the strings and addresses anywhere in a component hold, in order -/
def Component.contents (c : Component) : List Text := c.flatten.filterMap Token.content?

/-- The contents of a component; white space around the quoted text of an address does not count. -/
def Component.spelled : Component → List Text
  | .function name arguments =>
    if name.lower = "url".toList then (Component.function name arguments).contents.map Text.trim
    else (Component.function name arguments).contents
  | c => c.contents

variable {t property raw name : Text} {c : Component} {cs arguments : List Component}

namespace Component

theorem contents_all (cs : List Component) :
    (flattenAll cs).filterMap Token.content? = cs.flatMap contents := by
  induction cs with
  | nil => rfl
  | cons c cs ih =>
    rw [flattenAll, List.filterMap_append, ih]
    rfl

theorem contents_function (name : Text) (arguments : List Component) :
    (function name arguments).contents = arguments.flatMap contents := by
  rw [contents, flatten, List.filterMap_append, List.filterMap_cons, contents_all]
  exact List.append_nil _

theorem contents_of_isWhitespace (h : c.isWhitespace = true) : c.contents = [] := by
  unfold isWhitespace at h
  split at h
  · rfl
  · cases h

theorem contents_filter (cs : List Component) :
    (cs.filter (!·.isWhitespace)).flatMap contents = cs.flatMap contents := by
  induction cs with
  | nil => rfl
  | cons c cs ih =>
    cases hspace : c.isWhitespace with
    | true => rw [List.filter_cons_of_neg (by simp [hspace]), ih, List.flatMap_cons, contents_of_isWhitespace hspace,
        List.nil_append]
    | false => rw [List.filter_cons_of_pos (by simp [hspace]), List.flatMap_cons, ih, List.flatMap_cons]

theorem filterMap_closers (os : List Opener) : (os.map Opener.closer).filterMap Token.content? = [] := by
  rw [List.filterMap_eq_nil_iff]
  intro k hk
  obtain ⟨o, -, rfl⟩ := List.mem_map.1 hk
  cases o <;> rfl

/-- What a text holds that reads as one component is what the component holds. -/
theorem contents_single (h : single? (ofText t) = some c) :
    ((tokenize t).map (·.token)).filterMap Token.content? = c.contents := by
  obtain ⟨ts, e, hscan, he⟩ : ∃ ts e, tokenize t = ts ++ [e] ∧ e.token = .eof := Token.scan_ends .start t
  obtain ⟨hflat, -⟩ := ofTokens_lossless he fun x hx => Token.ne_eof_of_tokenize hscan hx
  rw [← hscan] at hflat
  have hfilter : (ofText t).filter (!·.isWhitespace) = [c] := by
    unfold single? at h
    split at h
    · next hone => rw [hone, Option.some.inj h]
    · cases h
  calc ((tokenize t).map (·.token)).filterMap Token.content?
      = (flattenAll (ofText t)).filterMap Token.content? := by
        rw [ofText, hflat, hscan, List.map_append, List.filterMap_append, List.filterMap_append, filterMap_closers,
          List.map_singleton, he]
        rfl
    _ = [c].flatMap contents := by rw [contents_all, ← contents_filter, hfilter]
    _ = c.contents := List.append_nil _

/-- The arguments of a color hold nothing. -/
theorem contents_of_arguments? {as : List Color.Argument} (h : Color.arguments? cs = some as) :
    cs.flatMap contents = [] := by
  fun_induction Color.arguments? cs generalizing as with
  | case1 => rfl
  | case2 cs v ih | case3 cs v ih | case4 cs v unit d _ ih =>
    obtain ⟨rest, hrest, -⟩ := Option.map_eq_some_iff.1 h
    exact ih hrest
  | case6 cs ih | case7 cs ih | case8 cs ih => exact ih h
  | case5 | case9 => cases h

theorem contents_of_ofFunction? (h : (Color.ofFunction? name arguments).isSome = true) :
    (function name arguments).contents = [] := by
  obtain ⟨color, hcolor⟩ := Option.isSome_iff_exists.1 h
  have harguments : ∃ as, Color.arguments? arguments = some as := by
    unfold Color.ofFunction? at hcolor
    split at hcolor
    · exact (Option.bind_eq_some_iff.1 hcolor).imp fun _ => And.left
    · split at hcolor
      · exact (Option.bind_eq_some_iff.1 hcolor).imp fun _ => And.left
      · cases hcolor
  obtain ⟨as, has⟩ := harguments
  rw [contents_function, contents_of_arguments? has]

end Component

/-- the kinds of values that may hold a string or an address -/
def Kind.quotes : Kind → Bool
  | string | url | function => true
  | _ => false

namespace Canonical

open Text (excerpts)
open Token (clear decoded)

/-- The text passes on what the component that it reads as holds: a single token, a color, an address in one
string, and functions and blocks of a clear text. -/
inductive PassesOn (raw : Text) : Component → Prop where
  | token (k : Token) : PassesOn raw (.token k)
  | address {name a : Text} {arguments : List Component} (hname : name.lower = "url".toList)
    (hfirst : arguments.find? (!·.isWhitespace) = some (.token (.string a)))
    (honly : (Component.function name arguments).contents = [a]) : PassesOn raw (.function name arguments)
  | color {name : Text} {arguments : List Component} (hname : name.lower ≠ "url".toList)
    (hcolor : (Color.ofFunction? name arguments).isSome = true) : PassesOn raw (.function name arguments)
  | function {name : Text} {arguments : List Component} (hname : name.lower ≠ "url".toList)
    (hclear : clear raw = true) : PassesOn raw (.function name arguments)
  | block {bracket : Bracket} {contents : List Component} (hclear : clear raw = true) :
    PassesOn raw (.block bracket contents)

/-- White space around the text is not in what it reads as, and the rest passes on what that holds. -/
structure Kept (raw : Text) (c : Component) : Prop where
  trimmed : Component.single? (Component.ofText raw.trim) = Component.single? (Component.ofText raw)
  passesOn : PassesOn raw.trim c

/-- what the value of a canonical form holds -/
inductive Holds : Canonical → List Text → Prop where
  | quoted (content : Text) : Holds ⟨.string, content.quoted⟩ [content]
  | address (a : Text) : Holds (ofUrl a) [a.trim]
  | passedOn (raw : Text) : Holds ⟨.function, raw.layout⟩ ((excerpts raw).map decoded)
  | other {f : Canonical} (hkind : f.kind.quotes = false) : Holds f []

/-- A canonical form tells what its value holds. -/
theorem Holds.functional {f f' : Canonical} {held held' : List Text} (h : Holds f held) (h' : Holds f' held')
    (hf : f = f') : held = held' := by
  cases h with
  | quoted content =>
    cases h' with
    | quoted content' => rw [Token.quoted_inj (Canonical.mk.inj hf).2]
    | address | passedOn => cases (Canonical.mk.inj hf).1
    | other hkind => rw [← hf] at hkind; cases hkind
  | address a =>
    cases h' with
    | quoted | passedOn => cases (Canonical.mk.inj hf).1
    | address a' =>
      have hquoted := List.append_cancel_right ((Canonical.mk.inj hf).2)
      rw [Token.quoted_inj (List.append_cancel_left hquoted)]
    | other hkind => rw [← hf] at hkind; cases hkind
  | passedOn raw =>
    cases h' with
    | quoted | address => cases (Canonical.mk.inj hf).1
    | passedOn raw' => rw [← Text.excerpts_layout raw, (Canonical.mk.inj hf).2, Text.excerpts_layout]
    | other hkind => rw [← hf] at hkind; cases hkind
  | other hkind =>
    cases h' with
    | quoted | address | passedOn => rw [hf] at hkind; cases hkind
    | other => rfl

theorem quotes_ofNumber (property : Text) (v : Double) : (ofNumber property v).kind.quotes = false := by
  unfold ofNumber
  repeat' split
  all_goals rfl

theorem quotes_ofPercentage (property : Text) (v : Double) : (ofPercentage property v).kind.quotes = false := by
  unfold ofPercentage
  split <;> rfl

theorem quotes_ofDimension (v : Double) (unit : Text) : (ofDimension v unit).kind.quotes = false := by
  unfold ofDimension
  dsimp only
  split
  · rfl
  · cases Measure.ofUnit? unit with
    | none => rfl
    | some m => cases m <;> rfl

theorem quotes_ofKeyword (property name : Text) : (ofKeyword property name).kind.quotes = false := by
  unfold ofKeyword
  dsimp only
  split
  · exact quotes_ofPercentage property _
  · rfl
  · rfl
  · rfl

theorem quotes_delim (c : Char) : (Token.delim c).kind.quotes = false := by
  by_cases hc : c = '/'
  · rw [hc]
    rfl
  · simp [Token.kind, hc, Kind.quotes]

theorem holds_token (property raw : Text) (k : Token) :
    Holds (ofComponent property raw k.kind (.token k)) (Component.token k).spelled := by
  cases k with
  | string content => exact .quoted content
  | url a => exact .address a
  | ident name => exact .other (quotes_ofKeyword property name)
  | number v =>
    rw [ofComponent]
    split
    · exact .other (quotes_ofNumber property v)
    · exact .other rfl
  | percentage v =>
    rw [ofComponent]
    split
    · exact .other (quotes_ofPercentage property v)
    · exact .other rfl
  | dimension v unit =>
    rw [ofComponent]
    split
    · exact .other (quotes_ofDimension v unit)
    · refine .other ?_
      cases hunit : Measure.ofUnit? unit with
      | none => rw [Token.kind, hunit]; rfl
      | some m => rw [Token.kind, hunit]; cases m <;> rfl
  | hash digits =>
    refine .other ?_
    cases hcolor : Color.ofHex? digits with
    | none => rw [ofComponent, Color.ofComponent?, hcolor, Token.kind, hcolor]; rfl
    | some color => rw [ofComponent, Color.ofComponent?, hcolor]; rfl
  | delim c => exact .other (quotes_delim c)
  | _ => exact .other rfl

theorem holds_ofComponent (hread : Component.single? (Component.ofText raw) = some c) (hc : PassesOn raw c) :
    Holds (ofComponent property raw c.kind c) c.spelled := by
  have hcontents (hclear : clear raw = true) : (excerpts raw).map decoded = c.contents :=
    (Token.excerpts_clear hclear).trans (Component.contents_single hread)
  cases hc with
  | token k => exact holds_token property raw k
  | @address name a arguments hname hfirst honly =>
    rw [ofComponent, if_pos hname, hfirst, Component.spelled, if_pos hname, honly]
    exact .address a
  | @color name arguments hname hcolor =>
    obtain ⟨color, hsome⟩ := Option.isSome_iff_exists.1 hcolor
    rw [ofComponent, if_neg hname, Color.ofComponent?, hsome, Component.spelled, if_neg hname,
      Component.contents_of_ofFunction? hcolor]
    exact .other rfl
  | @function name arguments hname hclear =>
    rw [Component.spelled, if_neg hname, ← hcontents hclear, ofComponent, if_neg hname, Color.ofComponent?]
    cases hcolor : Color.ofFunction? name arguments with
    | none => exact .passedOn raw
    | some color =>
      rw [hcontents hclear, Component.contents_of_ofFunction? (by rw [hcolor]; rfl)]
      exact .other rfl
  | block hclear =>
    change Holds _ (Component.contents _)
    rw [← hcontents hclear]
    exact .passedOn raw

theorem spelled_of_separator (h : c.kind = .separator) : c.spelled = [] := by
  cases c with
  | token k =>
    cases k with
    | string | url => cases h
    | _ => rfl
  | block bracket contents => cases h
  | function name arguments =>
    rw [Component.kind] at h
    split at h
    · cases h
    · split at h <;> cases h

theorem holds_ofValue (hread : Component.single? (Component.ofText raw) = some c) (hkept : Kept raw c) :
    Holds (ofValue property raw c.kind) c.spelled := by
  rw [ofValue]
  split
  · next hkind =>
    rw [spelled_of_separator hkind]
    exact .other rfl
  · rw [hkept.trimmed, hread]
    exact holds_ofComponent (hkept.trimmed.trans hread) hkept.passesOn

/-- Equal canonical forms are of values that hold the same strings and addresses. -/
theorem spelled_of_ofValue_eq {raw' : Text} {c' : Component}
    (hread : Component.single? (Component.ofText raw) = some c) (hkept : Kept raw c)
    (hread' : Component.single? (Component.ofText raw') = some c') (hkept' : Kept raw' c')
    (h : ofValue property raw c.kind = ofValue property raw' c'.kind) : c.spelled = c'.spelled :=
  (holds_ofValue hread hkept).functional (holds_ofValue hread' hkept') h

theorem spelled_of_ofValue_eq_nested : ofValue "b".toList "F(url(\"A\"))".toList .function =
      ofValue "b".toList "f(URL( \"A\"))".toList .function ∧
    (Component.function ['F'] [.function "url".toList [.token (.string ['A'])]]).spelled =
      (Component.function ['f'] [.function "URL".toList [.token (.string ['A'])]]).spelled := by
  have hsame : ofValue "b".toList "F(url(\"A\"))".toList .function =
      ofValue "b".toList "f(URL( \"A\"))".toList .function := by decide +kernel
  have hread : Component.single? (Component.ofText "F(url(\"A\"))".toList) =
      some (.function ['F'] [.function "url".toList [.token (.string ['A'])]]) := by
    have htokens : tokenize "F(url(\"A\"))".toList = [⟨.function ['F'], ⟨0, 1, 1⟩, 2⟩,
        ⟨.function "url".toList, ⟨2, 1, 3⟩, 6⟩, ⟨.string ['A'], ⟨6, 1, 7⟩, 9⟩, ⟨.closing .paren, ⟨9, 1, 10⟩, 10⟩,
        ⟨.closing .paren, ⟨10, 1, 11⟩, 11⟩, ⟨.eof, ⟨11, 1, 12⟩, 11⟩] := by decide +kernel
    rw [Component.ofText, htokens]
    rfl
  have hread' : Component.single? (Component.ofText "f(URL( \"A\"))".toList) =
      some (.function ['f'] [.function "URL".toList [.token (.string ['A'])]]) := by
    have htokens : tokenize "f(URL( \"A\"))".toList = [⟨.function ['f'], ⟨0, 1, 1⟩, 2⟩,
        ⟨.function "URL".toList, ⟨2, 1, 3⟩, 7⟩, ⟨.string ['A'], ⟨7, 1, 8⟩, 10⟩,
        ⟨.closing .paren, ⟨10, 1, 11⟩, 11⟩, ⟨.closing .paren, ⟨11, 1, 12⟩, 12⟩, ⟨.eof, ⟨12, 1, 13⟩, 12⟩] := by
      decide +kernel
    rw [Component.ofText, htokens]
    rfl
  exact ⟨hsame, spelled_of_ofValue_eq hread ⟨rfl, .function (by decide) (by decide +kernel)⟩ hread'
    ⟨rfl, .function (by decide) (by decide +kernel)⟩ hsame⟩

/-- An escaped quotation mark ends the quoted text too soon, and small letters are written for the rest of it. -/
theorem ofValue_confuses_quoted : ¬ ∀ (property raw raw' : Text) (c c' : Component),
    Component.single? (Component.ofText raw) = some c → Component.single? (Component.ofText raw') = some c' →
    ofValue property raw c.kind = ofValue property raw' c'.kind → c.spelled = c'.spelled := by
  intro h
  have hread (a : Char) (htokens : tokenize ("f(\"\\\"".toList ++ [a, '"', ')']) = [⟨.function ['f'], ⟨0, 1, 1⟩, 2⟩,
      ⟨.string ['"', a], ⟨2, 1, 3⟩, 7⟩, ⟨.closing .paren, ⟨7, 1, 8⟩, 8⟩, ⟨.eof, ⟨8, 1, 9⟩, 8⟩]) :
      Component.single? (Component.ofText ("f(\"\\\"".toList ++ [a, '"', ')'])) =
        some (.function ['f'] [.token (.string ['"', a])]) := by
    rw [Component.ofText, htokens]
    rfl
  have hspelled := h "b".toList _ _ _ _ (hread 'A' (by decide +kernel)) (hread 'a' (by decide +kernel))
    (by decide +kernel)
  exact absurd hspelled (by decide)

end Canonical
end StyleMiner
