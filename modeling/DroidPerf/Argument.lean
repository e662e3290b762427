import DroidPerf.Attach

/-!
# DroidPerf.Argument

The option string of the agent, taken apart (`argument.cpp`).

Positions are numbers of type `size_t`, with `npos` for none. The two searches of the standard
library are one function with the test as a parameter. Differences of positions wrap around as
the type does: the length of the last token is `npos` less its start, which is more than there
is, and `substr` takes what there is.

The loop is given fuel and can run out of it; that a round for each character is enough is
proved with what it returns.
-/

namespace DroidPerf

/-- A `std::string`, which is shorter than `npos`. -/
structure StdString where
  chars : List Char
  length_lt : chars.length < npos

/-- The first position from `pos` on with a character that satisfies `p`. -/
def findFirst (p : Char → Bool) (str : StdString) (pos : Nat) : Nat :=
  match (str.chars.drop pos).findIdx? p with
  | some i => pos + i
  | none => npos

/-- `std::string::find_first_of`. -/
def findFirstOf (str : StdString) (delimiters : List Char) (pos : Nat) : Nat :=
  findFirst (fun c => delimiters.contains c) str pos

/-- `std::string::find_first_not_of`. -/
def findFirstNotOf (str : StdString) (delimiters : List Char) (pos : Nat) : Nat :=
  findFirst (fun c => !delimiters.contains c) str pos

/-- The variables of `Tokenize`. -/
structure TokenizeVars where
  lastPos : Nat
  pos : Nat
  tokens : List (List Char)
  deriving DecidableEq, Repr

/-- The body of the loop: add the token that was found and look for the next one. -/
def tokenizeRound (str : StdString) (delimiters : List Char) (v : TokenizeVars) :
    Except Fault TokenizeVars := do
  let token ← substr str.chars v.lastPos (sub64 v.pos v.lastPos)
  let lastPos := findFirstNotOf str delimiters v.pos
  let pos := findFirstOf str delimiters lastPos
  return ⟨lastPos, pos, v.tokens ++ [token]⟩

/-- The loop. -/
def tokenizeLoop (str : StdString) (delimiters : List Char) :
    Nat → TokenizeVars → Except Fault TokenizeVars
  | fuel, v =>
    if v.pos ≠ npos ∨ v.lastPos ≠ npos then
      match fuel with
      | 0 => .error .outOfFuel
      | fuel + 1 => do
        let v ← tokenizeRound str delimiters v
        tokenizeLoop str delimiters fuel v
    else .ok v

/-- `class Argument`. -/
structure Argument where
  perfEventList : List (List Char)
  deriving DecidableEq, Repr

/-- `Tokenize`: `tokens` with the tokens of `str` added. The loop is given a round for every
character. -/
def Argument.tokenize (str : StdString) (tokens : List (List Char)) (delimiters : List Char) :
    Except Fault (List (List Char)) := do
  let lastPos := findFirstNotOf str delimiters 0
  let pos := findFirstOf str delimiters lastPos
  let v ← tokenizeLoop str delimiters str.chars.length ⟨lastPos, pos, tokens⟩
  return v.tokens

/-- `Argument::Argument`. -/
def Argument.new (arg : StdString) : Except Fault Argument := do
  let tokens ← Argument.tokenize arg [] [',']
  return ⟨tokens⟩

end DroidPerf
