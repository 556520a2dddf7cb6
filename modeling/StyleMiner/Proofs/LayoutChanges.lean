import Mathlib.Logic.Relation
import StyleMiner.Proofs.Quotations

/-! Texts that are laid out alike. A change of layout is made where no quotation mark is open: white space becomes
other white space, comes or goes beside a parenthesis, a comma or an end of the text, or a capital becomes a small
letter. Such changes keep what a text is laid out to, and they lead from a text to what it is laid out to; so they
lead from one text to another if and only if both are laid out to the same. -/

namespace StyleMiner.Text

open Excerpts (holdsGap isQuote_of_isSpace keepsGap_eq_false_iff)

variable {t a u : Text} {c : Char} {quote last : Option Char}

/-- A text behind which no quotation mark is open: each one that opens quoted text comes again behind it. -/
inductive Paired : Text → Prop where
  | nil : Paired []
  | bare {c : Char} {t : Text} (hc : isQuote c = false) (ht : Paired t) : Paired (c :: t)
  | quoted {q : Char} {body t : Text} (hq : isQuote q = true) (hbody : q ∉ body) (ht : Paired t) :
    Paired (q :: (body ++ q :: t))

/-- the quotation mark that is open behind one code point more -/
def openBehind (quote : Option Char) (c : Char) : Option Char :=
  match quote with
  | some q => if c = q then none else some q
  | none => opens c

theorem openBehind_bare (hc : isQuote c = false) : openBehind none c = none := opens_bare hc

theorem foldl_openBehind_body {q : Char} {body : Text} (hbody : q ∉ body) :
    body.foldl openBehind (some q) = some q := by
  induction body with
  | nil => rfl
  | cons c body ih =>
    rw [List.mem_cons, not_or] at hbody
    rw [List.foldl_cons, openBehind, if_neg (Ne.symm hbody.1), ih hbody.2]

theorem Paired.foldl_openBehind (h : Paired t) : t.foldl openBehind none = none := by
  induction h with
  | nil => rfl
  | bare hc _ ih => rw [List.foldl_cons, openBehind_bare hc, ih]
  | @quoted q body t hq hbody _ ih =>
    have hopens : openBehind none q = some q := if_pos hq
    rw [List.foldl_cons, hopens, List.foldl_append, foldl_openBehind_body hbody, List.foldl_cons, openBehind,
      if_pos rfl, ih]

theorem paired_of_foldl_openBehind (t : Text) : (t.foldl openBehind none = none → Paired t) ∧
    ∀ (q : Char) (body : Text), isQuote q = true → q ∉ body → t.foldl openBehind (some q) = none →
      Paired (q :: (body ++ t)) := by
  -- where a mark is open already, the text that it opened stands in front of `t`
  induction t with
  | nil => exact ⟨fun _ => .nil, fun _ _ _ _ h => nomatch h⟩
  | cons c t ih =>
    obtain ⟨houtside, hinside⟩ := ih
    constructor
    · intro h
      rw [List.foldl_cons] at h
      cases hquote : isQuote c with
      | true => exact hinside c [] hquote List.not_mem_nil (by rwa [openBehind, opens, if_pos hquote] at h)
      | false =>
        rw [openBehind_bare hquote] at h
        exact .bare hquote (houtside h)
    · intro q body hq hbody h
      rw [List.foldl_cons, openBehind] at h
      split at h
      · next hc =>
        subst hc
        exact .quoted hq hbody (houtside h)
      · next hc =>
        have hgrown : q ∉ body ++ [c] := by
          rw [List.mem_append, List.mem_singleton, not_or]
          exact ⟨hbody, Ne.symm hc⟩
        rw [List.append_cons]
        exact hinside q (body ++ [c]) hq hgrown h

theorem paired_iff : Paired t ↔ t.foldl openBehind none = none :=
  ⟨Paired.foldl_openBehind, (paired_of_foldl_openBehind t).1⟩

instance (t : Text) : Decidable (Paired t) := decidable_of_iff _ paired_iff.symm

theorem isQuote_of_mem_openBehind (h : ∀ q ∈ quote, isQuote q = true) (c : Char) :
    ∀ q ∈ openBehind quote c, isQuote q = true := by
  intro p hp
  cases quote with
  | some q =>
    rw [openBehind] at hp
    split at hp
    · cases hp
    · exact h p hp
  | none =>
    rw [openBehind, opens] at hp
    split at hp
    · next hquote =>
      obtain rfl := Option.some.inj hp
      exact hquote
    · cases hp

theorem isQuote_of_mem_foldl (h : ∀ q ∈ quote, isQuote q = true) (t : Text) :
    ∀ q ∈ t.foldl openBehind quote, isQuote q = true := by
  induction t generalizing quote with
  | nil => exact h
  | cons c t ih => exact ih (isQuote_of_mem_openBehind h c)

theorem Paired.concat (h : Paired a) (hc : isQuote c = false) : Paired (a ++ [c]) := by
  rw [paired_iff, List.foldl_append, h.foldl_openBehind]
  exact openBehind_bare hc

theorem Paired.of_concat (h : Paired (a ++ [c])) (hc : isQuote c = false) : Paired a := by
  rw [paired_iff, List.foldl_append, List.foldl_cons, List.foldl_nil] at h
  rw [paired_iff]
  cases hopen : a.foldl openBehind none with
  | none => rfl
  | some q =>
    have hnone : ∀ p ∈ (none : Option Char), isQuote p = true := fun _ hp => nomatch hp
    have hq : isQuote q = true := isQuote_of_mem_foldl hnone a q hopen
    have hne : c ≠ q := by
      rintro rfl
      rw [hc] at hq
      cases hq
    rw [hopen, openBehind, if_neg hne] at h
    cases h

/-- One change of layout, made where no quotation mark is open. -/
inductive Relaid : Text → Text → Prop where
  /-- white space for other white space -/
  | spaced {a u v : Text} (b : Text) (ha : Paired a) (hu : ∀ d ∈ u, isSpace d = true) (hune : u ≠ [])
    (hv : ∀ d ∈ v, isSpace d = true) (hvne : v ≠ []) : Relaid (a ++ u ++ b) (a ++ v ++ b)
  /-- no white space behind an opening parenthesis or a comma -/
  | behind {a u : Text} {c : Char} (b : Text) (ha : Paired a) (hc : c = '(' ∨ c = ',')
    (hu : ∀ d ∈ u, isSpace d = true) : Relaid (a ++ [c] ++ u ++ b) (a ++ [c] ++ b)
  /-- no white space in front of a closing parenthesis or a comma -/
  | before {a u : Text} {c : Char} (b : Text) (ha : Paired a) (hc : c = ')' ∨ c = ',')
    (hu : ∀ d ∈ u, isSpace d = true) : Relaid (a ++ u ++ [c] ++ b) (a ++ [c] ++ b)
  /-- no white space at the beginning -/
  | front {u : Text} (t : Text) (hu : ∀ d ∈ u, isSpace d = true) : Relaid (u ++ t) t
  /-- no white space at the end -/
  | back {t u : Text} (ht : Paired t) (hu : ∀ d ∈ u, isSpace d = true) : Relaid (t ++ u) t
  /-- a small letter for a capital -/
  | lowered {a : Text} (c : Char) (b : Text) (ha : Paired a) : Relaid (a ++ [c] ++ b) (a ++ [c.toLower] ++ b)

/-- texts that changes of layout lead from one to the other -/
def LaidAlike : Text → Text → Prop := Relation.EqvGen Relaid

theorem layoutFrom_append (a : Text) (quote : Option Char) (gap : Bool) (last : Option Char) :
    ∃ w gap' last', ∀ b, layoutFrom quote gap last (a ++ b) =
      w ++ layoutFrom (a.foldl openBehind quote) gap' last' b := by
  induction a generalizing quote gap last with
  | nil => exact ⟨[], gap, last, fun _ => rfl⟩
  | cons c a ih =>
    rw [List.foldl_cons]
    cases quote with
    | some q =>
      obtain ⟨w, gap', last', h⟩ := ih (openBehind (some q) c) false (some c)
      refine ⟨c :: w, gap', last', fun b => ?_⟩
      rw [List.cons_append, layoutFrom_quoted, List.cons_append, ← h]
      rfl
    | none =>
      cases hspace : isSpace c with
      | true =>
        obtain ⟨w, gap', last', h⟩ := ih none true last
        refine ⟨w, gap', last', fun b => ?_⟩
        rw [List.cons_append, layoutFrom_space hspace, openBehind_bare (isQuote_of_isSpace hspace), h]
      | false =>
        obtain ⟨w, gap', last', h⟩ := ih (opens c) false (some c.toLower)
        refine ⟨(if gap && keepsGap last c then [' '] else []) ++ c.toLower :: w, gap', last', fun b => ?_⟩
        rw [List.cons_append, layoutFrom_kept hspace, h, List.append_assoc, List.cons_append]
        rfl

theorem Paired.layout_append (ha : Paired a) :
    ∃ w gap last, ∀ b, (a ++ b).layout = w ++ layoutFrom none gap last b := by
  obtain ⟨w, gap, last, h⟩ := layoutFrom_append a none false none
  rw [ha.foldl_openBehind] at h
  exact ⟨w, gap, last, h⟩

/-- A change of layout keeps what the text is laid out to. -/
theorem Relaid.layout_eq (h : Relaid t u) : t.layout = u.layout := by
  cases h with
  | spaced b ha hu hune hv hvne =>
    obtain ⟨w, gap, last, hgo⟩ := ha.layout_append
    rw [List.append_assoc, List.append_assoc, hgo, hgo, layoutFrom_spaces hu, layoutFrom_spaces hv,
      List.isEmpty_eq_false_iff.2 hune, List.isEmpty_eq_false_iff.2 hvne]
  | @behind a u c b ha hc hu =>
    obtain ⟨w, gap, last, hgo⟩ := ha.layout_append
    have hspace : isSpace c = false := by rcases hc with rfl | rfl <;> rfl
    have hopens : opens c = none := by rcases hc with rfl | rfl <;> rfl
    have hlast : (some c.toLower).any holdsGap = false := by rcases hc with rfl | rfl <;> rfl
    rw [List.append_assoc, List.append_assoc, List.append_assoc, hgo, hgo, List.singleton_append,
      List.singleton_append, layoutFrom_kept hspace, layoutFrom_kept hspace, hopens, layoutFrom_spaces hu,
      layoutFrom_gap hlast]
  | @before a u c b ha hc hu =>
    obtain ⟨w, gap, last, hgo⟩ := ha.layout_append
    have hspace : isSpace c = false := by rcases hc with rfl | rfl <;> rfl
    have hkeeps : keepsGap last c = false := keepsGap_eq_false_iff.2 (.inr hc)
    rw [List.append_assoc, List.append_assoc, List.append_assoc, hgo, hgo, List.singleton_append,
      layoutFrom_spaces hu, layoutFrom_unkept hspace hkeeps, layoutFrom_unkept hspace hkeeps gap]
  | front _ hu => rw [layout, layoutFrom_spaces hu, layoutFrom_gap rfl, layout]
  | @back _ u ht hu =>
    obtain ⟨w, gap, last, hgo⟩ := ht.layout_append
    have hend := hgo []
    rw [List.append_nil] at hend
    rw [hend, hgo, ← List.append_nil u, layoutFrom_spaces hu]
    rfl
  | lowered c b ha =>
    obtain ⟨w, gap, last, hgo⟩ := ha.layout_append
    rw [List.append_assoc, List.append_assoc, hgo, hgo, List.singleton_append, List.singleton_append,
      layoutFrom_toLower]

theorem LaidAlike.layout_eq (h : LaidAlike t u) : t.layout = u.layout := by
  induction h with
  | rel _ _ hchange => exact hchange.layout_eq
  | refl _ => rfl
  | symm _ _ _ ih => exact ih.symm
  | trans _ _ _ _ _ ihfirst ihsecond => exact ihfirst.trans ihsecond

theorem relaid_unkept (ha : Paired a) (hu : ∀ d ∈ u, isSpace d = true) (hkeeps : keepsGap a.getLast? c = false)
    (b : Text) : Relaid (a ++ u ++ [c] ++ b) (a ++ [c] ++ b) := by
  rcases keepsGap_eq_false_iff.1 hkeeps with hlast | hc
  · rcases List.eq_nil_or_concat a with rfl | ⟨a, l, rfl⟩
    · rw [List.nil_append, List.nil_append, List.append_assoc]
      exact .front _ hu
    · rw [List.concat_eq_append] at ha hlast ⊢
      rw [List.getLast?_concat, Option.any_some, holdsGap, Bool.and_eq_false_iff, bne_eq_false_iff_eq,
        bne_eq_false_iff_eq] at hlast
      have hquote : isQuote l = false := by rcases hlast with rfl | rfl <;> rfl
      rw [List.append_assoc _ [c], List.append_assoc _ [c]]
      exact .behind _ (ha.of_concat hquote) hlast hu
  · exact .before b ha hc hu

/-- what is written of white space in front of a code point, behind the text `a` -/
def keptGap (a u : Text) (c : Char) : Text := if !u.isEmpty && keepsGap a.getLast? c then [' '] else []

theorem Paired.append_keptGap (ha : Paired a) (u : Text) (c : Char) : Paired (a ++ keptGap a u c) := by
  rw [keptGap]
  split
  · exact ha.concat rfl
  · rwa [List.append_nil]

theorem laidAlike_keptGap (ha : Paired a) (hu : ∀ d ∈ u, isSpace d = true) (c : Char) (t : Text) :
    LaidAlike (a ++ u ++ [c] ++ t) (a ++ keptGap a u c ++ [c] ++ t) := by
  rw [keptGap]
  cases hempty : u.isEmpty with
  | true =>
    rw [List.isEmpty_iff.1 hempty]
    exact .refl _
  | false =>
    rw [Bool.not_false, Bool.true_and]
    cases hkeeps : keepsGap a.getLast? c with
    | true =>
      have hne : u ≠ [] := List.isEmpty_eq_false_iff.1 hempty
      rw [List.append_assoc, List.append_assoc _ [c]]
      exact .rel _ _ (.spaced _ ha hu hne (List.forall_mem_singleton.2 rfl) (List.cons_ne_nil ' ' []))
    | false =>
      rw [if_neg Bool.false_ne_true, List.append_nil]
      exact .rel _ _ (relaid_unkept ha hu hkeeps t)

/-- What is left of a text is changed to what it is laid out to, behind `a`, which is written, and white space `u`,
which is not written yet. -/
theorem laidAlike_layoutFrom (t a u : Text) (hu : ∀ d ∈ u, isSpace d = true) (ha : u ≠ [] → Paired a) :
    LaidAlike (a ++ u ++ t) (a ++ layoutFrom (a.foldl openBehind none) (!u.isEmpty) a.getLast? t) := by
  induction t generalizing a u with
  | nil =>
    rw [List.append_nil, layoutFrom, List.append_nil]
    cases u with
    | nil =>
      rw [List.append_nil]
      exact .refl _
    | cons d u => exact .rel _ _ (.back (ha (List.cons_ne_nil d u)) hu)
  | cons c t ih =>
    cases hquote : a.foldl openBehind none with
    | some q =>
      -- inside quotes nothing waits to be written and nothing is changed
      have hempty : u = [] := by
        by_contra hne
        rw [(ha hne).foldl_openBehind] at hquote
        cases hquote
      subst hempty
      have hrest := ih (a ++ [c]) [] hu fun h => absurd rfl h
      rw [List.append_nil, List.append_assoc, List.append_assoc, List.foldl_append, hquote,
        List.getLast?_concat] at hrest
      rw [List.append_nil]
      exact hrest
    | none =>
      have hpaired : Paired a := paired_iff.2 hquote
      cases hspace : isSpace c with
      | true =>
        -- no change yet: only the next code point tells what becomes of the white space in front of it
        have hgrown : ∀ d ∈ u ++ [c], isSpace d = true := by
          rw [List.forall_mem_append, List.forall_mem_singleton]
          exact ⟨hu, hspace⟩
        have hrest := ih a (u ++ [c]) hgrown fun _ => hpaired
        rw [hquote, List.isEmpty_eq_false_iff.2 (List.concat_ne_nil c u)] at hrest
        rw [layoutFrom_space hspace, List.append_cons, List.append_assoc a]
        exact hrest
      | false =>
        have hgap : Paired (a ++ keptGap a u c) := hpaired.append_keptGap u c
        have hrest := ih (a ++ keptGap a u c ++ [c.toLower]) [] (List.forall_mem_nil _) fun h => absurd rfl h
        rw [List.append_nil, List.foldl_append, hgap.foldl_openBehind, List.getLast?_concat] at hrest
        have hwritten : a ++ layoutFrom none (!u.isEmpty) a.getLast? (c :: t) =
            a ++ keptGap a u c ++ [c.toLower] ++ layoutFrom (openBehind none c.toLower) false (some c.toLower) t := by
          rw [layoutFrom_kept hspace, openBehind, opens_toLower, List.append_assoc, List.append_assoc]
          rfl
        rw [hwritten, List.append_cons]
        exact .trans _ _ _ (laidAlike_keptGap hpaired hu c t) (.trans _ _ _ (.rel _ _ (.lowered c t hgap)) hrest)

theorem laidAlike_layout (t : Text) : LaidAlike t t.layout :=
  laidAlike_layoutFrom t [] [] (List.forall_mem_nil _) fun h => absurd rfl h

/-- Layout is a normal form: a text that is laid out stays as it is, and two texts are laid out to the same if and
only if changes of layout lead from one to the other. -/
theorem layout_normalForm (t u : Text) :
    t.layout.layout = t.layout ∧ (t.layout = u.layout ↔ LaidAlike t u) := by
  refine ⟨layout_layout t, fun h => ?_, LaidAlike.layout_eq⟩
  have hback : LaidAlike t.layout u := by
    rw [h]
    exact .symm _ _ (laidAlike_layout u)
  exact .trans _ _ _ (laidAlike_layout t) hback

/-- Behind a quotation mark that nothing closes, white space stays to the end. -/
example : layout " F( 'A'  , 'B ) ".toList = "f('A','B ) ".toList := by decide

end StyleMiner.Text
