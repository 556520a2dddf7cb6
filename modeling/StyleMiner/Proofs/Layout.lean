import Mathlib.Data.List.Basic
import StyleMiner.Text.Quoted
import StyleMiner.Proofs.CodePoints

/-! Trimming and laying out a text a second time changes nothing. What is quoted, and what holds neither white
space nor capital letters, is laid out as it is. -/

namespace StyleMiner.Text

variable {t v w body : Text} {c q : Char} {quote last : Option Char} {gap : Bool}

/-- a text without white space at its ends -/
structure Trimmed (t : Text) : Prop where
  head : ∀ c ∈ t.head?, isSpace c = false
  getLast : ∀ c ∈ t.getLast?, isSpace c = false

theorem all_isSpace_iff (o : Option Char) : o.all (!isSpace ·) = true ↔ ∀ c ∈ o, isSpace c = false := by
  cases o <;> simp

instance (t : Text) : Decidable (Trimmed t) :=
  decidable_of_iff (t.head?.all (!isSpace ·) = true ∧ t.getLast?.all (!isSpace ·) = true)
    ⟨fun h => ⟨(all_isSpace_iff _).1 h.1, (all_isSpace_iff _).1 h.2⟩,
      fun h => ⟨(all_isSpace_iff _).2 h.head, (all_isSpace_iff _).2 h.getLast⟩⟩

theorem trimStart_eq_self (h : ∀ c ∈ t.head?, isSpace c = false) : trimStart t = t := by
  cases t with
  | nil => rfl
  | cons c t => exact List.dropWhile_cons_of_neg (by simp [h c rfl])

theorem trimEnd_eq_self (h : ∀ c ∈ t.getLast?, isSpace c = false) : trimEnd t = t := by
  rw [← List.head?_reverse] at h
  rw [trimEnd, show t.reverse.dropWhile isSpace = t.reverse from trimStart_eq_self h, List.reverse_reverse]

theorem Trimmed.trim (h : Trimmed t) : t.trim = t := by
  rw [Text.trim, trimStart_eq_self h.head, trimEnd_eq_self h.getLast]

theorem head?_dropWhile_isSpace (t : Text) : ∀ c ∈ (t.dropWhile isSpace).head?, isSpace c = false := by
  intro c hc
  have hhead := List.head?_dropWhile_not isSpace t
  rw [Option.mem_def.1 hc] at hhead
  simpa using hhead

theorem trimmed_trim (t : Text) : Trimmed t.trim := by
  have hlast : ∀ c ∈ t.trim.getLast?, isSpace c = false := by
    rw [trim, trimEnd, List.getLast?_reverse]
    exact head?_dropWhile_isSpace _
  refine ⟨fun c hc => ?_, hlast⟩
  obtain ⟨ds, hds⟩ : ∃ ds, t.trimStart = t.trim ++ ds := by
    obtain ⟨us, hus⟩ := List.dropWhile_suffix (l := t.trimStart.reverse) isSpace
    refine ⟨us.reverse, ?_⟩
    rw [trim, trimEnd, ← List.reverse_append, hus, List.reverse_reverse]
  have hhead : c ∈ t.trimStart.head? := by
    rw [hds]
    cases h : t.trim with
    | nil =>
      rw [h] at hc
      cases hc
    | cons d u =>
      rw [h] at hc
      exact hc
  exact head?_dropWhile_isSpace t c hhead

theorem trim_trim (t : Text) : t.trim.trim = t.trim := (trimmed_trim t).trim

theorem Trimmed.lower (h : Trimmed t) : Trimmed t.lower := by
  obtain ⟨hhead, hlast⟩ := h
  constructor
  · intro c hc
    rw [Text.lower, List.head?_map] at hc
    obtain ⟨d, hd, rfl⟩ := Option.map_eq_some_iff.1 hc
    rw [isSpace_toLower, hhead d hd]
  · intro c hc
    rw [Text.lower, List.getLast?_map] at hc
    obtain ⟨d, hd, rfl⟩ := Option.map_eq_some_iff.1 hc
    rw [isSpace_toLower, hlast d hd]

/-- The ends of a text put together are those of its parts. -/
theorem trimmed_append {a b : Text} (ha : a ≠ []) (hb : b ≠ []) (hhead : ∀ c ∈ a.head?, isSpace c = false)
    (hlast : ∀ c ∈ b.getLast?, isSpace c = false) : Trimmed (a ++ b) := by
  constructor
  · rwa [List.head?_append_of_ne_nil _ ha]
  · rwa [List.getLast?_append_of_ne_nil _ hb]

theorem trimmed_concat {a : Text} {d : Char} (hhead : a.head? = some c) (hc : isSpace c = false)
    (hd : isSpace d = false) : Trimmed (a ++ [d]) := by
  refine trimmed_append ?_ (List.cons_ne_nil d []) (fun e he => ?_) fun e he => ?_
  · rintro rfl
    cases hhead
  · obtain rfl := Option.some.inj (hhead.symm.trans he)
    exact hc
  · obtain rfl : d = e := Option.some.inj he
    exact hd

theorem isQuote_toLower (c : Char) : isQuote c.toLower = isQuote c := by
  rw [Bool.eq_iff_iff]
  rw [isQuote_iff, isQuote_iff, toLower_eq_iff '"' (by decide), toLower_eq_iff '\'' (by decide)]

theorem toLower_of_isQuote (h : isQuote c = true) : c.toLower = c := by
  rcases isQuote_iff.1 h with rfl | rfl <;> rfl

/-- The quotation mark that a code point opens outside quotes. -/
def opens (c : Char) : Option Char := if isQuote c then some c else none

theorem opens_bare (h : isQuote c = false) : opens c = none := if_neg (by rw [h]; exact Bool.false_ne_true)

theorem opens_toLower (c : Char) : opens c.toLower = opens c := by
  rw [opens, isQuote_toLower, opens]
  split
  · next h => rw [toLower_of_isQuote h]
  · rfl

/-- whether the white space in front of a code point is kept -/
def keepsGap (last : Option Char) (c : Char) : Bool :=
  last.any (fun l => l != '(' && l != ',') && c != ')' && c != ','

theorem keepsGap_toLower (last : Option Char) (c : Char) : keepsGap last c.toLower = keepsGap last c := by
  have hclose : (c.toLower != ')') = (c != ')') := by
    rw [Bool.eq_iff_iff, bne_iff_ne, bne_iff_ne, ne_eq, toLower_eq_iff ')' (by decide)]
  have hcomma : (c.toLower != ',') = (c != ',') := by
    rw [Bool.eq_iff_iff, bne_iff_ne, bne_iff_ne, ne_eq, toLower_eq_iff ',' (by decide)]
  rw [keepsGap, hclose, hcomma, keepsGap]

theorem layoutFrom_quoted (q : Char) (gap : Bool) (last : Option Char) (c : Char) (t : Text) :
    layoutFrom (some q) gap last (c :: t) = c :: layoutFrom (if c = q then none else some q) false
      (some c) t := rfl

theorem layoutFrom_space (h : isSpace c = true) (gap : Bool) (last : Option Char) (t : Text) :
    layoutFrom none gap last (c :: t) = layoutFrom none true last t := by
  simp only [layoutFrom, h, if_true]

theorem layoutFrom_kept (h : isSpace c = false) (gap : Bool) (last : Option Char) (t : Text) :
    layoutFrom none gap last (c :: t) = (if gap && keepsGap last c then [' '] else []) ++
      c.toLower :: layoutFrom (opens c) false (some c.toLower) t := by
  simp only [layoutFrom, h, Bool.false_eq_true, if_false, keepsGap, opens, Bool.and_assoc]
  split <;> rfl

/-- a code point that is laid out as it is -/
def Kept (c : Char) : Prop := isSpace c = false ∧ isQuote c = false ∧ c.toLower = c

theorem Kept.layoutFrom_cons (h : Kept c) (gap : Bool) (last : Option Char) (t : Text) :
    layoutFrom none gap last (c :: t) =
      (if gap && keepsGap last c then [' '] else []) ++ c :: layoutFrom none false (some c) t := by
  rw [layoutFrom_kept h.1, h.2.2, opens_bare h.2.1]

theorem layoutFrom_run (hv : ∀ d ∈ v, Kept d) (last : Option Char) (z : Text) :
    layoutFrom none false last (v ++ z) = v ++ layoutFrom none false (v.getLast?.or last) z := by
  induction v generalizing last with
  | nil => rfl
  | cons c v ih =>
    rw [List.forall_mem_cons] at hv
    have hlast : (c :: v).getLast?.or last = v.getLast?.or (some c) := by
      rw [List.getLast?_cons]
      cases v.getLast? <;> rfl
    rw [List.cons_append, hv.1.layoutFrom_cons, ih hv.2, hlast]
    rfl

theorem layoutFrom_body (hq : q ∉ body) (gap : Bool) (last : Option Char) (z : Text) :
    layoutFrom (some q) gap last (body ++ q :: z) = body ++ q :: layoutFrom none false (some q) z := by
  induction body generalizing gap last with
  | nil => rw [List.nil_append, layoutFrom_quoted, if_pos rfl, List.nil_append]
  | cons c body ih =>
    rw [List.mem_cons, not_or] at hq
    rw [List.cons_append, layoutFrom_quoted, if_neg (Ne.symm hq.1), ih hq.2, List.cons_append]

theorem layoutFrom_unclosed (hq : q ∉ body) (gap : Bool) (last : Option Char) :
    layoutFrom (some q) gap last body = body := by
  induction body generalizing gap last with
  | nil => rfl
  | cons c body ih =>
    rw [List.mem_cons, not_or] at hq
    rw [layoutFrom_quoted, if_neg (Ne.symm hq.1), ih hq.2]

theorem layoutFrom_spaces (hw : ∀ d ∈ w, isSpace d = true) (gap : Bool) (last : Option Char) (t : Text) :
    layoutFrom none gap last (w ++ t) = layoutFrom none (gap || !w.isEmpty) last t := by
  induction w generalizing gap with
  | nil => rw [List.nil_append, List.isEmpty_nil, Bool.not_true, Bool.or_false]
  | cons d w ih =>
    rw [List.forall_mem_cons] at hw
    rw [List.cons_append, layoutFrom_space hw.1, ih hw.2, List.isEmpty_cons, Bool.not_false, Bool.true_or, Bool.or_true]

theorem layoutFrom_unkept (hspace : isSpace c = false) (hkeeps : keepsGap last c = false) (gap : Bool) (t : Text) :
    layoutFrom none gap last (c :: t) = layoutFrom none false last (c :: t) := by
  rw [layoutFrom_kept hspace, layoutFrom_kept hspace, hkeeps, Bool.and_false, Bool.false_and]

theorem layoutFrom_toLower (c : Char) (gap : Bool) (last : Option Char) (t : Text) :
    layoutFrom none gap last (c.toLower :: t) = layoutFrom none gap last (c :: t) := by
  cases hspace : isSpace c with
  | true => rw [layoutFrom_space hspace, layoutFrom_space (by rw [isSpace_toLower, hspace])]
  | false =>
    rw [layoutFrom_kept hspace, layoutFrom_kept (by rw [isSpace_toLower, hspace]), keepsGap_toLower, toLower_toLower,
      opens_toLower]

theorem layoutFrom_layoutFrom (quote : Option Char) (gap : Bool) (last : Option Char) (t : Text) :
    layoutFrom quote false last (layoutFrom quote gap last t) = layoutFrom quote gap last t := by
  induction t generalizing quote gap last with
  | nil => rfl
  | cons c t ih =>
    cases quote with
    | some q => rw [layoutFrom_quoted, layoutFrom_quoted, ih]
    | none =>
      cases hspace : isSpace c with
      | true => rw [layoutFrom_space hspace, ih]
      | false =>
        have hlower : isSpace c.toLower = false := by rw [isSpace_toLower, hspace]
        rw [layoutFrom_kept hspace]
        split
        · next hgap =>
          obtain ⟨rfl, hkeep⟩ := Bool.and_eq_true_iff.1 hgap
          rw [List.singleton_append, layoutFrom_space rfl, layoutFrom_kept hlower, keepsGap_toLower, hkeep,
            toLower_toLower, opens_toLower, ih]
          rfl
        · rw [List.nil_append, layoutFrom_kept hlower, toLower_toLower, opens_toLower, ih]
          rfl

/-- A text laid out is laid out. -/
theorem layout_layout (t : Text) : t.layout.layout = t.layout := layoutFrom_layoutFrom none false none t

theorem head?_layoutFrom (gap : Bool) (t : Text) :
    ∀ c ∈ (layoutFrom none gap none t).head?, isSpace c = false := by
  induction t generalizing gap with
  | nil => exact fun _ hc => nomatch hc
  | cons d t ih =>
    cases hspace : isSpace d with
    | true =>
      rw [layoutFrom_space hspace]
      exact ih true
    | false =>
      intro c hc
      rw [layoutFrom_kept hspace, show keepsGap none d = false from rfl, Bool.and_false] at hc
      obtain rfl := Option.some.inj hc
      rw [isSpace_toLower, hspace]

/-- What stands last stays last. -/
theorem getLast?_layoutFrom (h : ∃ c ∈ t.getLast?, isSpace c = false) (quote : Option Char) (gap : Bool)
    (last : Option Char) : ∃ c ∈ (layoutFrom quote gap last t).getLast?, isSpace c = false := by
  induction t generalizing quote gap last with
  | nil =>
    obtain ⟨c, hc, -⟩ := h
    cases hc
  | cons d t ih =>
    -- the last one written is that of what comes after `d`, or `d` itself where nothing does
    have hcons (e : Char) (q : Option Char) (l : Option Char) (he : isSpace d = false → isSpace e = false) :
        ∃ c ∈ (e :: layoutFrom q false l t).getLast?, isSpace c = false := by
      cases t with
      | nil =>
        obtain ⟨c, hc, hspace⟩ := h
        obtain rfl : d = c := Option.some.inj hc
        exact ⟨e, rfl, he hspace⟩
      | cons f t =>
        obtain ⟨c, hc, hspace⟩ := ih (by simpa using h) q false l
        refine ⟨c, ?_, hspace⟩
        rw [Option.mem_def, List.getLast?_cons, Option.mem_def.1 hc]
        rfl
    cases quote with
    | some q => exact hcons d _ _ id
    | none =>
      cases hspace : isSpace d with
      | true =>
        rw [layoutFrom_space hspace]
        cases t with
        | nil =>
          obtain ⟨c, hc, hc'⟩ := h
          obtain rfl : d = c := Option.some.inj hc
          rw [hspace] at hc'
          cases hc'
        | cons f t => exact ih (by simpa using h) none true last
      | false =>
        rw [layoutFrom_kept hspace, List.getLast?_append_of_ne_nil _ (List.cons_ne_nil _ _)]
        exact hcons d.toLower _ _ fun h' => by rw [isSpace_toLower, h']

theorem Trimmed.layout (h : Trimmed t) : Trimmed t.layout := by
  refine ⟨head?_layoutFrom false t, ?_⟩
  cases hlast : t.getLast? with
  | none =>
    rw [List.getLast?_eq_none_iff.1 hlast]
    exact fun _ hc => nomatch hc
  | some d =>
    obtain ⟨e, he, hspace⟩ := getLast?_layoutFrom ⟨d, hlast, h.getLast d hlast⟩ none false none
    intro c hc
    obtain rfl := Option.some.inj ((Option.mem_def.1 he).symm.trans hc)
    exact hspace

end StyleMiner.Text
