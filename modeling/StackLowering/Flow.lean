import StackLowering.Assembler
/-!
Jump targets of the loops and switches around the code being lowered. A loop
or switch enters a record while its body is lowered.
-/

namespace StackLowering

inductive FlowKind where
  | loop
  | switch
deriving DecidableEq, Repr

namespace FlowKind

def all : List FlowKind := [loop, switch]

def name : FlowKind → String
  | loop => "Loop"
  | switch => "Switch"

end FlowKind

/-- Jump targets of a loop or switch. For a loop, `bodyExit` is where a
continue goes; for a switch it is the default arm. -/
structure Flow where
  kind : FlowKind
  label : Option String
  entry : Label
  bodyEntry : Label
  bodyExit : Label
  exit : Label
deriving DecidableEq, Repr

/-- Active records, innermost first. A record's index counts from the outside,
so it is the number of records around it. -/
abbrev Flows := List Flow

namespace Flows

/-- The innermost record that satisfies `p`, with its index. -/
def find? (p : Flow → Bool) : Flows → Option (Nat × Flow)
  | [] => none
  | flow :: outer => if p flow then some (outer.length, flow) else find? p outer

/-- Where a break goes: the labelled construct, or else the innermost one. -/
def breakTarget? (flows : Flows) (label : Option String) : Option (Nat × Flow) :=
  flows.find? fun flow => label.isNone || flow.label == label

/-- Where a continue goes: the labelled loop, or else the innermost one. -/
def continueTarget? (flows : Flows) (label : Option String) : Option (Nat × Flow) :=
  flows.find? fun flow => flow.kind == .loop && (label.isNone || flow.label == label)

def innermostSwitch? (flows : Flows) : Option (Nat × Flow) :=
  flows.find? (·.kind == .switch)

end Flows

end StackLowering
