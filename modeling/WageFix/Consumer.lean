import WageFix.Wire
import WageFix.Mempool
import WageFix.STO

namespace WageFix.Consumer

open Json Wire Mempool

-- The chain as the consumer meets it: the node that knows its wallet, the
-- messages that it has not read yet, and whether its loop still runs.
structure World where
  node : Node State Issue
  queue : List Value
  running : Bool

inductive Move where
  | iterate
  | mine (count : ℕ)
  deriving DecidableEq, Repr

def start (s : State) (mined : ℕ) (messages : List Value) : World where
  node := ⟨s, mined, []⟩
  queue := messages
  running := true

-- get_transaction_count without a block counts what is mined.
def getTransactionCount (node : Node State Issue) : ℕ := node.mined

def transaction (nonce : ℕ) (issue : Issue) : Tx Issue where
  nonce := nonce
  gas := 2000000
  gasPrice := 10 * 10 ^ 9
  payload := issue

-- The body of the loop, which any error leaves.
def body (limits : Python.Limits) (message : Value) (node : Node State Issue) :
    Option (Node State Issue) := do
  let issue ← decodePython limits message
  node.send (transaction (getTransactionCount node) issue)

def iterate (limits : Python.Limits) (w : World) : Option World :=
  match w.running, w.queue with
  | true, message :: queue =>
      match body limits message w.node with
      | some node => some { w with node, queue }
      | none => some { w with queue, running := false }
  | _, _ => none

-- A transaction that reverts uses up its nonce and changes nothing else.
def execute (wallet : Address) (s : State) (issue : Issue) : State :=
  Transition.attempt WageFix.step s ⟨wallet, .issueTokens issue.to_ issue.amount⟩

def mine (wallet : Address) (count : ℕ) (w : World) : Option World :=
  (w.node.mineBlock (execute wallet) count).map fun node => { w with node }

def step (limits : Python.Limits) (wallet : Address) (w : World) : Move → Option World
  | .iterate => iterate limits w
  | .mine count => mine wallet count w

def World.Complete (w : World) : Prop :=
  w.node.pending = [] ∧ (w.queue = [] ∨ w.running = false)

end WageFix.Consumer
