import StyleMiner.Proofs.Layout

/-! What stands between quotation marks and in addresses. A text is gone through code point by code point, letter
case and white space outside quotation marks aside, so laying it out changes nothing in what is found. -/

namespace StyleMiner.Text

/-- what stands between quotation marks, or in an address without any -/
inductive Excerpt where
  | quoted (q : Char) (body : Text)
  | address (a : Text)

/-- where one is in a text: outside, behind the small letters of a name; between quotation marks; in an address -/
inductive Mode where
  | outside (name : Text)
  | quoted (q : Char) (body : Text)
  | address (a : Text)

/-- what has been found in front of a place in a text -/
structure Excerpts where
  found : List Excerpt
  mode : Mode

namespace Excerpts

/-- a code point that parts no name in two, with the marks in front of names among them -/
def inName (c : Char) : Bool := !isSpace c && (Token.isNameChar c || c == '#' || c == '@')

/-- goes on over one code point -/
def step (s : Excerpts) (c : Char) : Excerpts :=
  match s.mode with
  | .quoted q body =>
    if c = q then ⟨s.found ++ [.quoted q body], .outside []⟩ else ⟨s.found, .quoted q (body ++ [c])⟩
  | .outside name =>
    if isQuote c then ⟨s.found, .quoted c []⟩
    else if c = '(' ∧ name = "url".toList then ⟨s.found, .address []⟩
    else ⟨s.found, .outside (if inName c then name ++ [c.toLower] else [])⟩
  | .address a =>
    if isQuote c then ⟨s.found, .quoted c []⟩
    else if c = ')' then ⟨s.found ++ [.address a], .outside []⟩
    else ⟨s.found, .address (if isSpace c then a else a ++ [c.toLower])⟩

/-- what has been found when the text is over -/
def finish (s : Excerpts) : List Excerpt :=
  match s.mode with
  | .outside _ => s.found
  | .quoted q body => s.found ++ [.quoted q body]
  | .address a => s.found ++ [.address a]

def start : Excerpts := ⟨[], .outside []⟩

variable {c : Char} {es : List Excerpt} {name a : Text} {quote last : Option Char} {gap : Bool} {s s' : Excerpts}

theorem step_quoted (es : List Excerpt) (q : Char) (body : Text) (c : Char) : step ⟨es, .quoted q body⟩ c =
    if c = q then ⟨es ++ [.quoted q body], .outside []⟩ else ⟨es, .quoted q (body ++ [c])⟩ := rfl

theorem step_outside (es : List Excerpt) (name : Text) (c : Char) : step ⟨es, .outside name⟩ c =
    if isQuote c then ⟨es, .quoted c []⟩
    else if c = '(' ∧ name = "url".toList then ⟨es, .address []⟩
    else ⟨es, .outside (if inName c then name ++ [c.toLower] else [])⟩ := rfl

theorem step_address (es : List Excerpt) (a : Text) (c : Char) : step ⟨es, .address a⟩ c =
    if isQuote c then ⟨es, .quoted c []⟩
    else if c = ')' then ⟨es ++ [.address a], .outside []⟩
    else ⟨es, .address (if isSpace c then a else a ++ [c.toLower])⟩ := rfl

theorem toLower_eq_mark {d : Char} (hd : d.toNat < 65) : c.toLower = d ↔ c = d := toLower_eq_iff d (.inl hd)

theorem inName_toLower (c : Char) : inName c.toLower = inName c := by
  have hmark (d : Char) (hd : d.toNat < 65) : (c.toLower == d) = (c == d) := by
    rw [Bool.eq_iff_iff, beq_iff_eq, beq_iff_eq, toLower_eq_mark hd]
  rw [inName, inName, isSpace_toLower, isNameChar_toLower, hmark '#' (by decide), hmark '@' (by decide)]

theorem ne_of_isSpace {d : Char} (h : isSpace c = true) (hd : isSpace d = false) : c ≠ d := by
  rintro rfl
  rw [h] at hd
  cases hd

theorem isQuote_of_isSpace (h : isSpace c = true) : isQuote c = false := by
  rw [isQuote, Bool.or_eq_false_iff, beq_eq_false_iff_ne, beq_eq_false_iff_ne]
  exact ⟨ne_of_isSpace h (by decide), ne_of_isSpace h (by decide)⟩

theorem step_outside_space (h : isSpace c = true) : step ⟨es, .outside name⟩ c = ⟨es, .outside []⟩ := by
  have hparen := ne_of_isSpace (d := '(') h (by decide)
  simp [step_outside, isQuote_of_isSpace h, hparen, inName, h]

theorem step_address_space (h : isSpace c = true) : step ⟨es, .address a⟩ c = ⟨es, .address a⟩ := by
  have hparen := ne_of_isSpace (d := ')') h (by decide)
  simp [step_address, isQuote_of_isSpace h, hparen, h]

theorem step_outside_toLower (c : Char) : step ⟨es, .outside name⟩ c.toLower = step ⟨es, .outside name⟩ c := by
  simp only [step_outside, isQuote_toLower, inName_toLower, toLower_toLower, toLower_eq_mark (d := '(') (by decide)]
  split
  · next h => rw [toLower_of_isQuote h]
  · rfl

theorem step_address_toLower (c : Char) : step ⟨es, .address a⟩ c.toLower = step ⟨es, .address a⟩ c := by
  simp only [step_address, isQuote_toLower, isSpace_toLower, toLower_toLower, toLower_eq_mark (d := ')') (by decide)]
  split
  · next h => rw [toLower_of_isQuote h]
  · rfl

/-- a code point that white space may be written behind -/
def holdsGap (l : Char) : Bool := l != '(' && l != ','

theorem keepsGap_eq_false_iff :
    keepsGap last c = false ↔ last.any holdsGap = false ∨ c = ')' ∨ c = ',' := by
  change (last.any holdsGap && c != ')' && c != ',') = false ↔ _
  rw [Bool.and_eq_false_iff, Bool.and_eq_false_iff, bne_eq_false_iff_eq, bne_eq_false_iff_eq, or_assoc]

/-- Where one is in a text, `s`, and where in what has been laid out of it, `s'`. With a gap in front the one
is behind white space that is not written yet. -/
inductive Follows : Option Char → Bool → Option Char → Excerpts → Excerpts → Prop where
  | quoted {es : List Excerpt} {q : Char} {body : Text} {gap : Bool} {last : Option Char} :
    Follows (some q) gap last ⟨es, .quoted q body⟩ ⟨es, .quoted q body⟩
  | address {es : List Excerpt} {a : Text} {gap : Bool} {last : Option Char} :
    Follows none gap last ⟨es, .address a⟩ ⟨es, .address a⟩
  | outside {es : List Excerpt} {name : Text} {gap : Bool} {last : Option Char}
    (hname : last.any holdsGap = false → name = []) :
    Follows none gap last ⟨es, .outside (if gap then [] else name)⟩ ⟨es, .outside name⟩

/-- Behind a code point that both have gone on over there is no gap. -/
theorem follows_step (h : ∀ q body, s.mode ≠ .quoted q body) (c : Char) :
    Follows (opens c) false (some c.toLower) (s.step c) (s.step c) := by
  obtain ⟨es, mode⟩ := s
  cases hquote : isQuote c with
  | true =>
    rw [opens, if_pos hquote]
    cases mode with
    | quoted q body => exact absurd rfl (h q body)
    | outside name =>
      rw [step_outside, if_pos hquote]
      exact .quoted
    | address a =>
      rw [step_address, if_pos hquote]
      exact .quoted
  | false =>
    have hquote : ¬ isQuote c = true := by rw [hquote]; exact Bool.false_ne_true
    rw [opens, if_neg hquote]
    cases mode with
    | quoted q body => exact absurd rfl (h q body)
    | outside name =>
      rw [step_outside, if_neg hquote]
      split
      · exact .address
      · refine .outside fun hgap => ?_
        rw [Option.any_some, holdsGap, Bool.and_eq_false_iff, bne_eq_false_iff_eq, bne_eq_false_iff_eq,
          toLower_eq_mark (by decide), toLower_eq_mark (by decide)] at hgap
        rcases hgap with rfl | rfl <;> rfl
    | address a =>
      rw [step_address, if_neg hquote]
      split
      · exact .outside fun _ => rfl
      · exact .address

theorem Follows.finish (h : Follows quote gap last s s') : s'.finish = s.finish := by
  cases h <;> rfl

theorem Follows.space (h : Follows none gap last s s') (hspace : isSpace c = true) :
    Follows none true last (s.step c) s' := by
  cases h with
  | address =>
    rw [step_address_space hspace]
    exact .address
  | outside hname =>
    rw [step_outside_space hspace]
    exact .outside hname

theorem step_outside_mark (h : c = ')' ∨ c = ',') (es : List Excerpt) (name : Text) :
    step ⟨es, .outside name⟩ c = ⟨es, .outside []⟩ := by
  rcases h with rfl | rfl <;> simp [step_outside, isQuote, inName, Token.isNameChar, Token.isNameStart]

/-- A code point that is no white space is written, with a space in front if there was a gap worth one. -/
theorem Follows.kept (h : Follows none gap last s s') (c : Char) : Follows (opens c) false (some c.toLower)
    (s.step c) (((if gap && keepsGap last c then [' '] else []).foldl step s').step c.toLower) := by
  cases h with
  | @address es a gap last =>
    have hgap : (if gap && keepsGap last c then [' '] else []).foldl step ⟨es, .address a⟩ =
        ⟨es, .address a⟩ := by
      split
      · exact step_address_space (c := ' ') rfl
      · rfl
    rw [hgap, step_address_toLower]
    exact follows_step (fun _ _ => Mode.noConfusion) c
  | @outside es name gap last hname =>
    have hgap : ∃ name', (if gap && keepsGap last c then [' '] else []).foldl step ⟨es, .outside name⟩ =
        ⟨es, .outside name'⟩ ∧
        step ⟨es, .outside name'⟩ c = step ⟨es, .outside (if gap then [] else name)⟩ c := by
      cases gap with
      | false => exact ⟨name, rfl, rfl⟩
      | true =>
        cases hkeeps : keepsGap last c with
        | true => exact ⟨[], step_outside_space (c := ' ') rfl, rfl⟩
        | false =>
          -- no space is written where the name is over already or is over with `c`
          refine ⟨name, rfl, ?_⟩
          rcases keepsGap_eq_false_iff.1 hkeeps with hlast | hmark
          · rw [hname hlast]
            rfl
          · rw [step_outside_mark hmark, step_outside_mark hmark]
    obtain ⟨name', hwritten, hsame⟩ := hgap
    rw [hwritten, step_outside_toLower, hsame]
    exact follows_step (fun _ _ => Mode.noConfusion) c

/-- What is found in a text is found in it laid out. -/
theorem finish_layoutFrom (h : Follows quote gap last s s') (t : Text) :
    ((layoutFrom quote gap last t).foldl step s').finish = (t.foldl step s).finish := by
  induction t generalizing quote gap last s s' with
  | nil => exact h.finish
  | cons c t ih =>
    cases quote with
    | some q =>
      rw [layoutFrom_quoted, List.foldl_cons, List.foldl_cons]
      refine ih ?_
      cases h with
      | quoted =>
        rw [step_quoted]
        split
        · exact .outside fun _ => rfl
        · exact .quoted
    | none =>
      cases hspace : isSpace c with
      | true =>
        rw [layoutFrom_space hspace, List.foldl_cons]
        exact ih (h.space hspace)
      | false =>
        rw [layoutFrom_kept hspace, List.foldl_append, List.foldl_cons, List.foldl_cons]
        exact ih (h.kept c)

end Excerpts

variable {last : Option Char}

/-- what stands between quotation marks and in addresses -/
def excerpts (t : Text) : List Excerpt := (t.foldl Excerpts.step Excerpts.start).finish

/-- Behind a code point that holds no gap it makes no difference whether there is one. -/
theorem layoutFrom_gap (h : last.any Excerpts.holdsGap = false) (gap : Bool) (t : Text) :
    layoutFrom none gap last t = layoutFrom none false last t := by
  cases t with
  | nil => rfl
  | cons c t =>
    cases hspace : isSpace c with
    | true => rw [layoutFrom_space hspace, layoutFrom_space hspace]
    | false => exact layoutFrom_unkept hspace (Excerpts.keepsGap_eq_false_iff.2 (.inl h)) gap t

theorem excerpts_layout (t : Text) : excerpts t.layout = excerpts t :=
  Excerpts.finish_layoutFrom (.outside fun _ => rfl) t

end StyleMiner.Text
