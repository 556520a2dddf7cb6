import StyleMiner.Token.Lexer

/-! Scanning a text: comments are skipped, a token is read, and so on to the end, where the last
token says so. The place of a token is the place of the text before it, counted from the start. -/

namespace StyleMiner.Token

/-- how far a comment goes on after its opening; to the end of the text if nothing closes it -/
def comment : Text → Nat
  | [] => 0
  | '*' :: '/' :: _ => 2
  | _ :: t => comment t + 1

/-- how far the comments in front go -/
def comments : Text → Nat
  | '/' :: '*' :: t => comments (t.drop (comment t)) + comment t + 2
  | _ => 0
termination_by t => t.length
decreasing_by simp only [List.length_drop, List.length_cons]; omega

/-- the tokens of the text `t` that stands at `l` -/
def scan (l : Location) (t : Text) : List Located :=
  let n := comments t
  let start := l.advanceOver (t.take n)
  match _h : t.drop n with
  | [] => [⟨.eof, start, start.offset⟩]
  | c :: u =>
    let r := read c u
    let stop := start.advanceOver (c :: u.take r.2)
    ⟨r.1, start, stop.offset⟩ :: scan stop (u.drop r.2)
termination_by t.length
decreasing_by
  have h := congrArg List.length ‹t.drop _ = c :: u›
  simp only [List.length_drop, List.length_cons] at h ⊢
  omega

end Token

/-- the tokens of a text, the end as the last of them -/
def tokenize (t : Text) : List Located := Token.scan .start t

end StyleMiner
