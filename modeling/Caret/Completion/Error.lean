import Caret.Grammar
import Caret.Parser
/-!
# Why there is nothing to complete
-/
namespace Caret

/-- How a parser stack and a grammar can fail to fit together. -/
inductive TableFault
  /-- A label names a rule that the grammar does not have. -/
  | missingRule (label : Nat)
  /-- A rule can start with the empty label. -/
  | emptyInFirst
  | missingLabel (label : Nat)
  deriving DecidableEq, Repr

def TableFault.message : TableFault → String
  | .missingRule label => s!"label {label} names a rule without a DFA"
  | .emptyInFirst => "accept label inside a FIRST set"
  | .missingLabel label => s!"label {label} is not in the table"

/-- Why completion has no answer. -/
inductive CompletionError
  /-- The position is in a string or in a token without a place. -/
  | unparsableContext (kind : String) (position : Position)
  /-- The position is outside the source. -/
  | outOfBounds (position : Position)
  /-- The start rule was complete before the end of the snippet. -/
  | endOfInputNotReached
  | corruptGrammar (fault : TableFault)
  | parse (error : ParseError)
  | grammar (error : GrammarError)
  deriving DecidableEq, Repr

namespace CompletionError

/-- There is nothing to offer, and nothing is wrong. -/
def isRecoverable : CompletionError → Bool
  | unparsableContext .. | outOfBounds _ => true
  | _ => false

def message : CompletionError → String
  | unparsableContext kind position => s!"cannot complete inside {kind} at {position.render}"
  | outOfBounds position => s!"position {position.render} is outside the module"
  | endOfInputNotReached => "the truncated snippet ended without an end marker"
  | corruptGrammar fault => s!"grammar table is inconsistent: {fault.message}"
  | parse error => error.message
  | grammar error => error.message

/-- The code under which the error is reported. -/
def code : CompletionError → String
  | unparsableContext .. => "seer::unparsable_context"
  | outOfBounds _ => "seer::out_of_bounds"
  | endOfInputNotReached => "seer::end_of_input_not_reached"
  | corruptGrammar _ => "seer::corrupt_grammar"
  | parse error => error.code
  | grammar error => error.code

/-- Advice that goes with the error. -/
def help? : CompletionError → Option String
  | unparsableContext .. =>
    some "completions are not available inside string literals or unparsable tokens"
  | grammar error => error.help?
  | _ => none

end CompletionError

end Caret
