import InfraLint.Json.Token

/-!
From tokens to data. The lists and records that are open are kept as a stack of frames, so that
one token is dealt with at a time and nesting of any depth needs no recursion. Of several
entries of a record with one key the last gives the value and the first the place.
-/
namespace InfraLint.Json

/-- A list or record that is not closed yet. A record knows the key its next value goes to. -/
inductive Frame where
  | list (done : List Datum)
  | record (done : Entries Datum) (key : String)

inductive Expecting where
  | value
  | valueOrClose
  | key
  | keyOrClose
  | colon
  | separator
  | nothing (result : Datum)

structure State where
  frames : List Frame
  expecting : Expecting

/-- A complete datum goes to the innermost frame, or is the result. -/
def deliver (d : Datum) : List Frame → State
  | [] => ⟨[], .nothing d⟩
  | .list done :: frames => ⟨.list (d :: done) :: frames, .separator⟩
  | .record done key :: frames => ⟨.record (done.put key d) key :: frames, .separator⟩

def close? (token : Token) : List Frame → Option State
  | .list done :: frames =>
    match token with
    | .closeList => some (deliver (.list done.reverse) frames)
    | _ => none
  | .record done _ :: frames =>
    match token with
    | .closeRecord => some (deliver (.record done) frames)
    | _ => none
  | [] => none

def value? (token : Token) (frames : List Frame) : Option State :=
  match token with
  | .scalar d => some (deliver d frames)
  | .openList => some ⟨.list [] :: frames, .valueOrClose⟩
  | .openRecord => some ⟨.record [] "" :: frames, .keyOrClose⟩
  | _ => none

def key? (token : Token) (frames : List Frame) : Option State :=
  match token, frames with
  | .scalar (.text key), .record done _ :: frames => some ⟨.record done key :: frames, .colon⟩
  | _, _ => none

def State.accept (s : State) (token : Token) : Option State :=
  match s.expecting with
  | .value => value? token s.frames
  | .valueOrClose => close? token s.frames <|> value? token s.frames
  | .key => key? token s.frames
  | .keyOrClose => close? token s.frames <|> key? token s.frames
  | .colon =>
    match token with
    | .colon => some { s with expecting := .value }
    | _ => none
  | .separator =>
    match token, s.frames with
    | .comma, .list _ :: _ => some { s with expecting := .value }
    | .comma, .record .. :: _ => some { s with expecting := .key }
    | _, frames => close? token frames
  | .nothing _ => none

def State.result? (s : State) : Option Datum :=
  match s.expecting with
  | .nothing d => some d
  | _ => none

/-- The datum that a text writes, if it writes exactly one. -/
def read? (s : String) : Option Datum := do
  let ts ← tokens s
  let state ← ts.foldlM State.accept ⟨[], .value⟩
  state.result?

end InfraLint.Json
