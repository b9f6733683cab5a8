import Ripple.Grammar.Program

/-!
# Faulty Text

A text that does not follow the grammar is mended with as little loss as
possible. A repair either passes over a stretch of tokens around the place
where reading stopped, or supposes one closing mark there. Each repair has a
cost that grows with the text lost, and the cheapest repairs that let the
whole text be read are taken.

A repair after which reading goes on well for a few tokens is settled; the
next fault is then looked at on its own. The search is bounded, and when it
gives up the whole text counts as lost.
-/

namespace Ripple.Grammar

/-- The rough token at the front: a name, a number, a slash with what it may enclose,
or one mark. -/
def roughToken (cs : List Char) : List Char :=
  match scanName cs with
  | some (name, _) => name
  | none =>
    match scanNumber cs with
    | some (digits, _) => digits
    | none =>
      match cs with
      | '/' :: rest => '/' :: rest.takeWhile fun c => c ≠ '/' && !isLineEnd c
      | c :: _ => [c]
      | [] => []

/-- A token as far as faulty text shows it. -/
structure RoughToken where
  start : Position
  stop : Position
  mark : Char

def roughTokens : Nat → List Char → Position → List RoughToken
  | 0, _, _ => []
  | fuel + 1, cs, p =>
    let (_, rest, here) := collectExtras [] (fuel + 1) cs p []
    match roughToken rest with
    | [] => []
    | mark :: more =>
      let stop := here.pastAll (mark :: more)
      ⟨here, stop, mark⟩ :: roughTokens fuel (rest.drop (more.length + 1)) stop

/-- Whether tokens close no bracket that was opened before them. -/
def closesNothing : Nat → List RoughToken → Bool
  | _, [] => true
  | depth, token :: rest =>
    match token.mark with
    | '(' | '[' | '{' => closesNothing (depth + 1) rest
    | ')' | ']' | '}' =>
      match depth with
      | 0 => false
      | depth + 1 => closesNothing depth rest
    | _ => closesNothing depth rest

variable (tokens : List RoughToken)

/-- The tokens that begin between two offsets. -/
def tokensBetween (start stop : Nat) : List RoughToken :=
  tokens.filter fun t => start ≤ t.start.offset && t.start.offset < stop

structure Candidate where
  repair : Repair
  cost : Nat
  resume : Nat

/-- What passing over a stretch costs at least. -/
def skipCost : Nat := 500

def tokenCost : Nat := 100

def lineCost : Nat := 30

def supplyCost : Nat := 610

/-- How many tokens back a passed-over stretch may begin. -/
def reachBack : Nat := 16

/-- How many tokens ahead a passed-over stretch may end. -/
def reachAhead : Nat := 12

def closingMarks : List String := ["\x7d", ")", "]", ">"]

def costBetween (start stop : Nat) : Nat :=
  let lost := tokensBetween tokens start stop
  let lines := match lost.head?, lost.getLast? with
    | some first, some final => final.stop.row - first.start.row
    | _, _ => 0
  skipCost + tokenCost * lost.length + (stop - start) + lineCost * lines

/-- The repairs around the place where reading stopped, cheapest first. -/
def candidates (final stopped : Nat) : List Candidate :=
  let starts := tokens.map fun t => t.start.offset
  let before := (starts.filter (· ≤ stopped)).reverse
  let back := (before.take reachBack ++ (starts.take 1).filter (· ≤ stopped)).eraseDups.filter
    fun start => closesNothing 0 (tokensBetween tokens start stopped)
  let ahead := (starts.filter (stopped < ·)).take reachAhead ++ [final]
  let stops := stopped :: ahead
  let skips := stops.flatMap fun stop =>
    (back.filter (· < stop)).map fun start =>
      (⟨.skip start stop, costBetween tokens start stop, stop⟩ : Candidate)
  let supplies := closingMarks.map fun mark =>
    (⟨.supply stopped mark, supplyCost, stopped⟩ : Candidate)
  (skips ++ supplies).mergeSort fun a b => a.cost ≤ b.cost

/-- Adds a repair to others, of which it replaces those inside of it. -/
def addRepair (repairs : List Repair) (repair : Repair) : List Repair :=
  match repair with
  | .supply _ _ => repairs ++ [repair]
  | .skip start stop =>
    (repairs.filter fun
      | .skip s _ => s < start || stop ≤ s
      | .supply at_ _ => at_ < start || stop < at_) ++ [repair]

structure Trial where
  repairs : List Repair
  cost : Nat
  resume : Nat

/-- Puts a trial among others in the order of their costs, after those of equal cost. -/
def enqueue (t : Trial) : List Trial → List Trial
  | [] => [t]
  | u :: rest => if t.cost < u.cost then t :: u :: rest else u :: enqueue t rest

/-- How many tokens have to be read after a repair for it to be settled. -/
def settledAfter : Nat := 3

/-- Whether reading went on well after a repair. -/
def wentOn (resume reached : Nat) : Bool :=
  settledAfter ≤ (tokensBetween tokens resume reached).length

/-- What a search for the next settled repairs ends with. -/
inductive Search where
  | done (tree : Tree)
  /-- The fault is mended, and reading stops at a later one. -/
  | settled (repairs : List Repair) (stopped : Nat)
  | lost

/-- Tries repairs in the order of their costs. -/
def search (jsx : Bool) (source : List Char) (tokens : List RoughToken) (final : Nat) :
    Nat → List Trial → Search
  | 0, _ => .lost
  | _, [] => .lost
  | fuel + 1, t :: rest =>
    match readProgram jsx source t.repairs with
    | .complete tree => .done tree
    | .stuck reached =>
      if wentOn tokens t.resume reached then .settled t.repairs reached
      else if reached ≤ t.resume then search jsx source tokens final fuel rest
      else
        let more := (candidates tokens final reached).map fun c =>
          (⟨addRepair t.repairs c.repair, t.cost + c.cost, c.resume⟩ : Trial)
        search jsx source tokens final fuel (more.foldl (fun queue t => enqueue t queue) rest)

/-- How many trials one fault is worth. -/
def trialLimit : Nat := 400

/-- Mends one fault after the other. -/
def mend (jsx : Bool) (source : List Char) (tokens : List RoughToken) (final : Nat) :
    Nat → List Repair → Nat → Option Tree
  | 0, _, _ => none
  | fuel + 1, repairs, stopped =>
    let first := (candidates tokens final stopped).map fun c =>
      (⟨addRepair repairs c.repair, c.cost, c.resume⟩ : Trial)
    match search jsx source tokens final trialLimit first with
    | .done tree => some tree
    | .settled repairs stopped => mend jsx source tokens final fuel repairs stopped
    | .lost => none

def faultLimit : Nat := 40

/-- The tree of a text of which nothing could be read. -/
def lostTree (source : List Char) : Tree :=
  let (rest, start) := skipBlanks source .origin
  let error := errorNode start rest
  ⟨.construct .program, none, start, error.stop, true, [error]⟩

def parse (jsx : Bool) (source : List Char) : Tree :=
  match readProgram jsx source [] with
  | .complete tree => tree
  | .stuck stopped =>
    let tokens := roughTokens (source.length + 1) source .origin
    let final := (Position.origin.pastAll source).offset
    (mend jsx source tokens final faultLimit [] stopped).getD (lostTree source)

end Ripple.Grammar
