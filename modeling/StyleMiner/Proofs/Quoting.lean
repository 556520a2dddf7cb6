import StyleMiner.Proofs.PrintedForms
import StyleMiner.Sheet.Basic

/-! Quoting keeps texts apart and is undone by reading: quoted text without a line feed is one string that holds
the text, by itself and as the address that a canonical form is written with. -/

namespace StyleMiner

variable {t property raw address : Text} {kind : Kind} {c : Component}

/-- the address that a component holds, with quotation marks around it or without -/
def Component.address? : Component → Option Text
  | .token (.url address) => some address
  | .function name arguments =>
    if name.lower = "url".toList then
      match arguments.find? (!·.isWhitespace) with
      | some (.token (.string address)) => some address
      | _ => none
    else none
  | _ => none

theorem tokenize_quoted (h : '\n' ∉ t) : (tokenize t.quoted).map (·.token) = [.string t, .eof] := by
  have hread := Token.read_string h []
  rw [List.append_nil] at hread
  exact (Token.spells_single (by decide) hread).scan .start

namespace Canonical

theorem ofComponent_of_address? (h : c.address? = some address) (property raw : Text) (kind : Kind) :
    ofComponent property raw kind c = ofUrl address := by
  cases c with
  | token k =>
    cases k with
    | url a =>
      obtain rfl : a = address := Option.some.inj h
      rfl
    | _ => cases h
  | block bracket contents => cases h
  | function name arguments =>
    rw [Component.address?] at h
    split at h
    · next hname =>
      split at h
      · next a hfind =>
        obtain rfl := Option.some.inj h
        rw [ofComponent, if_pos hname, hfind]
      · cases h
    · cases h

theorem ofValue_of_single (hkind : kind ≠ .separator)
    (hread : Component.single? (Component.ofText raw.trim) = some c) :
    ofValue property raw kind = ofComponent property.trim.lower raw.trim kind c := by
  rw [ofValue, if_neg hkind, hread]

theorem ofValue_string (hread : Component.single? (Component.ofText raw.trim) = some (.token (.string t))) :
    ofValue property raw .string = ⟨.string, t.quoted⟩ := by
  rw [ofValue_of_single (by decide) hread]
  rfl

theorem ofText_ofUrl (h : '\n' ∉ address.trim) : Component.ofText (ofUrl address).text =
    [.function "url".toList [.token (.string address.trim)]] := Component.ofText_url h

end Canonical

open Component in
/-- Texts are equal where they are quoted alike, and so are the contents of strings where these are equivalent.
Reading undoes quoting where no line feed is quoted, in the canonical forms of addresses too. -/
theorem quoted_faithful :
    (∀ s t : Text, s.quoted = t.quoted → s = t) ∧
    (∀ p q raw raw' s t : Text, single? (ofText raw.trim) = some (.token (.string s)) →
      single? (ofText raw'.trim) = some (.token (.string t)) →
        ((Value.ofRaw p raw .string).equivalent (Value.ofRaw q raw' .string) = true ↔ s = t)) ∧
    (∀ s : Text, '\n' ∉ s → (tokenize s.quoted).map (·.token) = [.string s, .eof]) ∧
    ∀ (property raw address : Text) (c : Component), single? (ofText raw.trim) = some c →
      c.address? = some address → '\n' ∉ address.trim →
        ofText (Canonical.ofValue property raw .url).text =
          [.function "url".toList [.token (.string address.trim)]] := by
  refine ⟨fun s t => Token.quoted_inj, fun p q raw raw' s t hs ht => ?_, fun s => tokenize_quoted,
    fun property raw address c hread haddress hfeed => ?_⟩
  · rw [Value.equivalent, beq_iff_eq]
    dsimp only [Value.ofRaw]
    rw [Canonical.ofValue_string hs, Canonical.ofValue_string ht, Canonical.mk.injEq]
    exact ⟨fun h => Token.quoted_inj h.2, fun h => ⟨rfl, congrArg Text.quoted h⟩⟩
  · rw [Canonical.ofValue_of_single (by decide) hread, Canonical.ofComponent_of_address? haddress]
    exact Canonical.ofText_ofUrl hfeed

open Component in
/-- Quotation marks, a backslash before a hexadecimal digit and a blank survive, and so does a backslash in an
address. -/
theorem quoted_faithful_escapes :
    (tokenize (Text.quoted "\"\\4a '".toList)).map (·.token) = [.string "\"\\4a '".toList, .eof] ∧
    (Value.ofRaw "content".toList "'x\\'y'".toList .string).equivalent
      (Value.ofRaw "quotes".toList "\"x'y\"".toList .string) = true ∧
    ofText (Canonical.ofValue "src".toList " URL( 'a\\\\4\" ' ) ".toList .url).text =
      [.function "url".toList [.token (.string "a\\4\"".toList)]] := by
  obtain ⟨-, hequivalent, htokens, haddress⟩ := quoted_faithful
  have hsingle : ofText "'x\\'y'".toList = [.token (.string "x'y".toList)] :=
    ofText_token (Token.spells_single (by decide) (by decide +kernel)) ⟨by simp, rfl, by simp⟩
  have hdouble : ofText "\"x'y\"".toList = [.token (.string "x'y".toList)] :=
    ofText_quoted (t := "x'y".toList) (by decide)
  have hurl : ofText "URL( 'a\\\\4\" ' )".toList =
      [.function "URL".toList [.token (.string "a\\4\" ".toList), .token .whitespace]] := by
    have hspells : tokenize "URL( 'a\\\\4\" ' )".toList = [⟨.function "URL".toList, ⟨0, 1, 1⟩, 5⟩,
        ⟨.string "a\\4\" ".toList, ⟨5, 1, 6⟩, 13⟩, ⟨.whitespace, ⟨13, 1, 14⟩, 14⟩,
        ⟨.closing .paren, ⟨14, 1, 15⟩, 15⟩, ⟨.eof, ⟨15, 1, 16⟩, 15⟩] := by decide +kernel
    rw [ofText, hspells]
    rfl
  refine ⟨htokens _ (by decide), (hequivalent _ _ _ _ "x'y".toList _ ?_ ?_).2 rfl,
    haddress _ _ _ (.function "URL".toList [.token (.string "a\\4\" ".toList), .token .whitespace]) ?_ rfl
      (by decide)⟩
  · rw [Text.Trimmed.trim (by decide), hsingle]
    rfl
  · rw [Text.Trimmed.trim (by decide), hdouble]
    rfl
  · rw [show Text.trim " URL( 'a\\\\4\" ' ) ".toList = "URL( 'a\\\\4\" ' )".toList by decide, hurl]
    rfl

end StyleMiner
