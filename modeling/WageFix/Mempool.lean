import Mathlib.Data.Nat.Notation
import Mathlib.Data.List.Basic
import Mathlib.Data.List.Perm.Basic
import Mathlib.Data.List.Nodup

namespace Mempool

variable {σ α : Type*}

structure Tx (α : Type*) where
  nonce : ℕ
  gas : ℕ
  gasPrice : ℕ
  payload : α

-- What a node knows of one account: the chain, how many transactions of the
-- account are in it, and those that wait for a block.
structure Node (σ α : Type*) where
  chain : σ
  mined : ℕ
  pending : List (Tx α)

namespace Node

def held (n : Node σ α) (nonce : ℕ) : Option (Tx α) := n.pending.find? fun tx => tx.nonce = nonce

def without (n : Node σ α) (nonce : ℕ) : List (Tx α) := n.pending.filter fun tx => tx.nonce ≠ nonce

-- The pool holds one transaction for each nonce, and gives it up only for a
-- better paid one.
def send (n : Node σ α) (tx : Tx α) : Option (Node σ α) :=
  if tx.nonce < n.mined then none
  else
    match n.held tx.nonce with
    | none => some { n with pending := n.pending ++ [tx] }
    | some old =>
        if old.gasPrice < tx.gasPrice then some { n with pending := n.without tx.nonce ++ [tx] }
        else none

-- A block takes the transactions of an account in the order of their nonces.
def includeNext (exec : σ → α → σ) (n : Node σ α) : Option (Node σ α) :=
  match n.held n.mined with
  | none => none
  | some tx => some {
      chain := exec n.chain tx.payload
      mined := n.mined + 1
      pending := n.without n.mined }

def mineBlock (exec : σ → α → σ) : ℕ → Node σ α → Option (Node σ α)
  | 0, n => some n
  | count + 1, n => (n.includeNext exec).bind (mineBlock exec count)

-- The nonce after those of the transactions that wait already.
def nextNonce (n : Node σ α) : ℕ := n.mined + n.pending.length

def payloads (n : Node σ α) : List α := n.pending.map (·.payload)

def enqueue (n : Node σ α) (tx : Tx α) : Node σ α := { n with pending := n.pending ++ [tx] }

def Consecutive (n : Node σ α) : Prop :=
  (n.pending.map (·.nonce)).Perm (List.range' n.mined n.pending.length)

theorem send_chain {n m : Node σ α} {tx : Tx α} (h : n.send tx = some m) : m.chain = n.chain := by
  unfold send at h
  split at h
  · exact absurd h (by simp)
  · split at h
    · rw [← Option.some.inj h]
    · split at h
      · rw [← Option.some.inj h]
      · exact absurd h (by simp)

section Single

variable {exec : σ → α → σ} {n m : Node σ α} {tx old : Tx α} {count : ℕ}

theorem held_of_single (hn : n.pending = [tx]) : n.held tx.nonce = some tx := by
  simp [held, hn]

theorem without_of_single (hn : n.pending = [tx]) : n.without tx.nonce = [] := by
  simp [without, hn]

theorem send_of_idle (hn : n.pending = []) (htx : tx.nonce = n.mined) :
    n.send tx = some { n with pending := [tx] } := by
  rw [send, if_neg (by omega), held, hn]
  rfl

theorem send_of_held (hn : n.pending = [old]) (hnonce : old.nonce = tx.nonce)
    (hprice : old.gasPrice = tx.gasPrice) : n.send tx = none := by
  unfold send
  split_ifs
  · rfl
  · rw [← hnonce, held_of_single hn]
    exact if_neg (by omega)

theorem mineBlock_of_idle (hn : n.pending = []) (h : mineBlock exec count n = some m) : m = n := by
  cases count with
  | zero => exact (Option.some.inj h).symm
  | succ count =>
      have hnone : n.includeNext exec = none := by rw [includeNext, held, hn]; rfl
      rw [mineBlock, hnone] at h
      exact absurd h (by simp)

theorem includeNext_of_single (hn : n.pending = [tx]) (htx : tx.nonce = n.mined) :
    n.includeNext exec = some ⟨exec n.chain tx.payload, n.mined + 1, []⟩ := by
  rw [includeNext, ← htx, held_of_single hn, ← without_of_single hn, htx]

theorem mineBlock_of_single (hn : n.pending = [tx]) (htx : tx.nonce = n.mined)
    (h : mineBlock exec count n = some m) :
    m = n ∨ m = ⟨exec n.chain tx.payload, n.mined + 1, []⟩ := by
  cases count with
  | zero => exact Or.inl (Option.some.inj h).symm
  | succ count =>
      rw [mineBlock, includeNext_of_single hn htx] at h
      exact Or.inr (mineBlock_of_idle rfl h)

end Single

section Consecutive

variable {exec : σ → α → σ} {n m : Node σ α} {tx old : Tx α}

theorem Consecutive.nodup (h : n.Consecutive) : (n.pending.map (·.nonce)).Nodup :=
  h.nodup_iff.mpr List.nodup_range'

theorem Consecutive.bounds (h : n.Consecutive) (htx : tx ∈ n.pending) :
    n.mined ≤ tx.nonce ∧ tx.nonce < n.nextNonce := by
  have hmem := h.mem_iff.mp (List.mem_map_of_mem htx)
  exact List.mem_range'_1.mp hmem

theorem held_eq_some {nonce : ℕ} (h : n.held nonce = some tx) :
    tx ∈ n.pending ∧ tx.nonce = nonce := by
  unfold held at h
  exact ⟨List.mem_of_find?_eq_some h, by simpa using List.find?_some h⟩

theorem held_next (h : n.Consecutive) : n.held n.nextNonce = none := by
  rw [held, List.find?_eq_none]
  intro tx htx
  have hlt := (h.bounds htx).2
  simp only [decide_eq_true_eq]
  omega

theorem held_first (h : n.Consecutive) (hn : n.pending ≠ []) : ∃ tx, n.held n.mined = some tx := by
  have hmem : n.mined ∈ n.pending.map (·.nonce) := by
    apply h.mem_iff.mpr
    apply List.mem_range'_1.mpr
    have := List.length_pos_of_ne_nil hn
    omega
  obtain ⟨tx, htx, hnonce⟩ := List.mem_map.mp hmem
  cases hheld : n.held n.mined with
  | some tx => exact ⟨tx, rfl⟩
  | none =>
      have hall := List.find?_eq_none.mp hheld tx htx
      exact absurd (decide_eq_true hnonce) hall

-- One transaction for each nonce: the pool is the one held and the others.
theorem perm_of_find? {pool : List (Tx α)} {nonce : ℕ} (hpool : (pool.map (·.nonce)).Nodup)
    (h : pool.find? (fun tx => tx.nonce = nonce) = some tx) :
    pool.Perm (tx :: pool.filter fun tx => tx.nonce ≠ nonce) := by
  induction pool with
  | nil => simp at h
  | cons head pool ih =>
      have hnodup := List.nodup_cons.mp hpool
      by_cases hhead : head.nonce = nonce
      · obtain rfl : head = tx := by simpa [hhead] using h
        have hrest : (pool.filter fun tx => tx.nonce ≠ nonce) = pool := by
          apply List.filter_eq_self.mpr
          intro other hother
          apply decide_eq_true
          intro hsame
          have hnonce : other.nonce = head.nonce := hsame.trans hhead.symm
          exact hnodup.1 (List.mem_map.mpr ⟨other, hother, hnonce⟩)
        rw [List.filter_cons_of_neg (by simpa using hhead), hrest]
      · have hfind : pool.find? (fun tx => tx.nonce = nonce) = some tx := by
          simpa [hhead] using h
        rw [List.filter_cons_of_pos (by simpa using hhead)]
        exact ((ih hnodup.2 hfind).cons head).trans (List.Perm.swap _ _ _)

theorem Consecutive.perm_without (h : n.Consecutive) {nonce : ℕ} (htx : n.held nonce = some tx) :
    n.pending.Perm (tx :: n.without nonce) :=
  perm_of_find? h.nodup htx

theorem send_next (h : n.Consecutive) (htx : tx.nonce = n.nextNonce) :
    n.send tx = some (n.enqueue tx) := by
  have hmined : ¬ tx.nonce < n.mined := by
    rw [htx, nextNonce]
    omega
  rw [send, if_neg hmined, htx, held_next h]
  rfl

theorem Consecutive.enqueue (h : n.Consecutive) (htx : tx.nonce = n.nextNonce) :
    (n.enqueue tx).Consecutive := by
  show ((n.pending ++ [tx]).map (·.nonce)).Perm (List.range' n.mined (n.pending ++ [tx]).length)
  rw [List.map_append, List.length_append, List.length_singleton, List.range'_1_concat]
  have hlast : [tx].map (·.nonce) = [n.mined + n.pending.length] := congrArg (fun k => [k]) htx
  rw [hlast]
  exact List.Perm.append_right _ h

-- What a send can do: the transaction joins those that wait, or takes the
-- place of the one that has its nonce and pays less.
theorem send_eq_some (h : n.Consecutive) (hsend : n.send tx = some m) :
    (n.held tx.nonce = none ∧ m = n.enqueue tx) ∨
      ∃ old, n.held tx.nonce = some old ∧ old.gasPrice < tx.gasPrice ∧
        m = { n with pending := n.without tx.nonce ++ [tx] } ∧ m.Consecutive := by
  unfold send at hsend
  split at hsend
  · exact absurd hsend (by simp)
  · split at hsend
    · rename_i hheld
      exact .inl ⟨hheld, (Option.some.inj hsend).symm⟩
    · rename_i old hheld
      split at hsend
      · rename_i hprice
        obtain rfl := Option.some.inj hsend
        refine .inr ⟨old, hheld, hprice, rfl, ?_⟩
        have hperm := h.perm_without hheld
        have hlength := hperm.length_eq
        have hnonce := (held_eq_some hheld).2
        show ((n.without tx.nonce ++ [tx]).map (·.nonce)).Perm
          (List.range' n.mined (n.without tx.nonce ++ [tx]).length)
        have hcount : (n.without tx.nonce ++ [tx]).length = n.pending.length := by
          rw [hlength, List.length_append]
          rfl
        rw [hcount, List.map_append]
        have hpool := hperm.map (·.nonce)
        rw [List.map_cons, hnonce] at hpool
        exact List.perm_append_singleton _ _ |>.trans (hpool.symm.trans h)
      · exact absurd hsend (by simp)

theorem includeNext_eq_some (h : n.Consecutive) (hm : n.includeNext exec = some m) :
    ∃ tx, n.held n.mined = some tx ∧
      m = ⟨exec n.chain tx.payload, n.mined + 1, n.without n.mined⟩ ∧ m.Consecutive := by
  unfold includeNext at hm
  split at hm
  · exact absurd hm (by simp)
  · rename_i tx hheld
    obtain rfl := Option.some.inj hm
    refine ⟨tx, hheld, rfl, ?_⟩
    have hperm := h.perm_without hheld
    have hpool : ((tx :: n.without n.mined).map (·.nonce)).Perm
        (List.range' n.mined n.pending.length) := (hperm.map _).symm.trans h
    rw [hperm.length_eq, List.length_cons, List.range'_succ, List.map_cons,
      (held_eq_some hheld).2] at hpool
    exact hpool.cons_inv

end Consecutive

end Node

end Mempool
