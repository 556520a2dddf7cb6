import StyleMiner.Component.Basic

/-! From tokens to components, in one pass with the functions and blocks still open on a stack. An
open one takes every token up to its own closing bracket; the brackets of others that it meets are
plain tokens to it. At the end of the text all that are open close. -/

namespace StyleMiner

inductive Opener where
  | function (name : Text)
  | block (bracket : Bracket)
  deriving DecidableEq, Repr

namespace Opener

def ofToken? : Token → Option Opener
  | .function name => some (.function name)
  | .opening bracket => some (.block bracket)
  | _ => none

/-- the token that ends what the opener began -/
def closer : Opener → Token
  | .function _ => .closing .paren
  | .block bracket => .closing bracket

def component : Opener → List Component → Component
  | .function name, cs => .function name cs
  | .block bracket, cs => .block bracket cs

end Opener

/-- a function or block still open: its opener, the offset of that, and what it holds so far -/
structure Frame where
  opener : Opener
  start : Nat
  inside : List Component

namespace Frame

def push (f : Frame) (c : Component) : Frame := { f with inside := f.inside ++ [c] }

def close (f : Frame) : Component := f.opener.component f.inside

end Frame

/-- a component with the offsets where it starts and where it stops -/
structure Spanned where
  component : Component
  start : Nat
  stop : Nat

namespace Component

/-- hands a finished component to the innermost open frame, or out if there is none -/
def deliver (s : Spanned) : List Frame → Option Spanned × List Frame
  | [] => (some s, [])
  | f :: fs => (none, f.push s.component :: fs)

/-- what one token does to the stack, and the component that it completes -/
def feed (t : Located) (fs : List Frame) : Option Spanned × List Frame :=
  match fs with
  | f :: outer =>
    if t.token = f.opener.closer then deliver ⟨f.close, f.start, t.stop⟩ outer
    else
      match Opener.ofToken? t.token with
      | some o => (none, ⟨o, t.start.offset, []⟩ :: fs)
      | none => deliver ⟨.token t.token, t.start.offset, t.stop⟩ fs
  | [] =>
    match Opener.ofToken? t.token with
    | some o => (none, [⟨o, t.start.offset, []⟩])
    | none => deliver ⟨.token t.token, t.start.offset, t.stop⟩ []

/-- closes all that is open, the innermost first -/
def closeAll (stop : Nat) : List Frame → Option Spanned
  | [] => none
  | f :: fs =>
    let outermost := fs.foldl (fun inner outer => outer.push inner.close) f
    some ⟨outermost.close, outermost.start, stop⟩

/-- Reads components up to the end of the text, or to a token outside them that `ends` them, which
is left. The open frames are `fs`, and the last token taken stopped at `last`. -/
def gather (ends : Token → Bool) (last : Nat) (fs : List Frame) :
    List Located → List Spanned × List Located
  | [] => ((closeAll last fs).toList, [])
  | t :: ts =>
    if t.token = .eof then ((closeAll last fs).toList, t :: ts)
    else if fs.isEmpty && ends t.token then ([], t :: ts)
    else
      let s := feed t fs
      let r := gather ends t.stop s.2 ts
      (s.1.toList ++ r.1, r.2)

/-- the components before the first token outside them that ends them, and the tokens from it on -/
def takeUntil (ends : Token → Bool) (ts : List Located) : List Spanned × List Located :=
  gather ends 0 [] ts

def ofTokens (ts : List Located) : List Component :=
  (takeUntil (fun _ => false) ts).1.map (·.component)

def ofText (t : Text) : List Component := ofTokens (tokenize t)

theorem gather_suffix (ends : Token → Bool) (last : Nat) (fs : List Frame) (ts : List Located) :
    (gather ends last fs ts).2 <:+ ts := by
  induction ts generalizing last fs with
  | nil => exact List.suffix_refl _
  | cons t ts ih =>
    unfold gather
    split
    · exact List.suffix_refl _
    split
    · exact List.suffix_refl _
    · exact (ih _ _).trans (List.suffix_cons t ts)

theorem takeUntil_suffix (ends : Token → Bool) (ts : List Located) :
    (takeUntil ends ts).2 <:+ ts := gather_suffix ends 0 [] ts

/-- A token that ends nothing is taken. -/
theorem takeUntil_cons_suffix (ends : Token → Bool) (t : Located) (ts : List Located)
    (heof : t.token ≠ .eof) (hends : ends t.token = false) :
    (takeUntil ends (t :: ts)).2 <:+ ts := by
  simp only [takeUntil, gather, heof, hends, if_false, Bool.and_false]
  exact gather_suffix ..

end Component
end StyleMiner
