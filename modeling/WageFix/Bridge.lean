import WageFix.Consumer
import WageFix.Listener

namespace WageFix.Bridge

open Json Wire Mempool

-- Both readers of the topic at work for the wallet that owns the token. They
-- share its node, which the consumer's half of the world holds.
structure World where
  consumer : Consumer.World
  listener : Listener.World

-- The node fills in what the listener leaves out of a transaction. Any other
-- account may transact at any time.
inductive Move where
  | consumer (move : Consumer.Move)
  | listener (move : Listener.Move) (gas gasPrice : ℕ)
  | transact (m : Msg)
  deriving DecidableEq, Repr

def World.node (w : World) : Node State Issue := w.consumer.node

def World.withNode (w : World) (node : Node State Issue) : World :=
  { w with consumer := { w.consumer with node } }

def records (log : List Value) : List (Option Listener.Payload) :=
  log.map fun message => some (some message)

def issueAt (log : List Value) (offset : ℕ) : Option Issue :=
  log[offset]?.bind fun message =>
    match Listener.react (.message (some (some message))) with
    | .call issue => some issue
    | _ => none

def start (s : State) (mined : ℕ) (log : List Value) (read first : ℕ) : World where
  consumer := Consumer.start s mined (log.drop read)
  listener := Listener.start first

-- eth_sendTransaction: the nonce comes after all that the node has of the
-- wallet already, and the call is accepted once the pool has it.
def submit (log : List Value) (gas gasPrice : ℕ) (w : World) : Option World := do
  let offset ← w.listener.inflight
  let issue ← issueAt log offset
  let listener ← Listener.callOk w.listener
  let node ← w.node.send ⟨w.node.nextNonce, gas, gasPrice, issue⟩
  return { w.withNode node with listener }

def step (limits : Python.Limits) (wallet : Address) (log : List Value) (w : World) :
    Move → Option World
  | .consumer move =>
      (Consumer.step limits wallet w.consumer move).map fun consumer => { w with consumer }
  | .listener .callOk gas gasPrice => submit log gas gasPrice w
  | .listener move _ _ =>
      (Listener.step (records log) w.listener move).map fun listener => { w with listener }
  | .transact m =>
      if m.sender = wallet then none
      else
        let chain := Transition.attempt WageFix.step w.node.chain m
        some (w.withNode { w.node with chain })

def Move.listening : Move → Option Listener.Move
  | .listener move _ _ => some move
  | _ => none

end WageFix.Bridge
