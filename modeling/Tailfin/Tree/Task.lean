import Mathlib.Data.List.AList
import Mathlib.Data.Rat.Floor
import Mathlib.Data.UInt
import Tailfin.Ident.NodeRef
import Tailfin.Library.ParentLinks
import Tailfin.Wire.Usage

/-!
# The task arena

`Task` and `Arena` of `tailfin-tree`, operation by operation. A `HashMap` is an association
list with distinct keys. A task carries what every operation keeps: `order` lists the keys of
`nodes` once each, a node is stored under its own id, and the root is stored. The counters of a
node are `UInt32`, token counts, prices and allowances are `UInt64`, and they wrap or saturate
where the source does. How many requests are open, a `u32` in the source, is a `Nat`: fewer than
`2 ^ 32` of a task are open at once.
-/

namespace Tailfin

/-- Outcome of admitting a request against a task's ceiling. -/
inductive Admission where
  /-- Under budget. Relay it. -/
  | allow
  /-- This request crosses the ceiling. Relay it, then seal the task. -/
  | last
  /-- The task is already sealed. Stop it. -/
  | deny (spentMicros ceilingMicros : UInt64)
  deriving DecidableEq, Repr

/-- How a sealed task should be stopped. -/
inductive StopStyle where
  | syntheticEndTurn
  | retryableFalse429
  | paymentRequired402
  deriving DecidableEq, Repr

structure Node where
  id : String
  parent : Option String
  label : Option String
  usage : Usage
  requests : UInt32
  incomplete : UInt32
  depth : Nat
  /-- Voucher minted from the parent. `none` means inherit the root ceiling. -/
  allowanceMicros : Option UInt64
  sealed : Bool
  deriving DecidableEq, Repr

/-- The node that `Task.new` and `Task.ensure` store. -/
def Node.fresh (id : String) (parent label : Option String) (depth : Nat) : Node where
  id := id
  parent := parent
  label := label
  usage := default
  requests := 0
  incomplete := 0
  depth := depth
  allowanceMicros := none
  sealed := false

def Node.withAllowance (micros : UInt64) (n : Node) : Node :=
  { n with allowanceMicros := some micros }

def Node.seal (n : Node) : Node := { n with sealed := true }

/-- What `Task.finish` adds to its node. -/
def Node.record (usage : Usage) (complete : Bool) (n : Node) : Node :=
  { n with
    usage := n.usage.merge usage
    requests := n.requests + 1
    incomplete := if complete then n.incomplete else n.incomplete + 1 }

theorem Node.withAllowance_id (micros : UInt64) (n : Node) : (n.withAllowance micros).id = n.id :=
  rfl

theorem Node.seal_id (n : Node) : n.seal.id = n.id := rfl

theorem Node.record_id (usage : Usage) (complete : Bool) (n : Node) :
    (n.record usage complete).id = n.id := rfl

abbrev NodeMap := AList (fun _ : String => Node)

/-- `(remaining as f64 * share).floor() as u64` of `mint_voucher`. Only the statements that say
so depend on how the product rounds. -/
class FloatProduct where
  floorMul : UInt64 → ℚ → UInt64

/-- The product taken exactly, then floored. -/
@[reducible] def exactProduct : FloatProduct where
  floorMul remaining share := UInt64.ofNat ⌊(remaining.toNat : ℚ) * share⌋₊

/-- One root task and everything spawned beneath it. -/
structure Task where
  root : String
  nodes : NodeMap
  order : List String
  ceilingMicros : Option UInt64
  sealed : Bool
  /-- The greatest `live` so far. -/
  peakConcurrency : Nat
  /-- The requests that are open, fewer than `2 ^ 32`. -/
  live : Nat
  /-- 0.0–1.0. Each new child is minted this fraction of the parent's remaining voucher. -/
  voucherShare : Option ℚ
  syntheticSent : Bool
  order_nodup : order.Nodup
  mem_order : ∀ k, k ∈ order ↔ k ∈ nodes
  id_eq : ∀ k n, nodes.lookup k = some n → n.id = k
  root_mem : root ∈ nodes

namespace Task

def new (root : String) : Task where
  root := root
  nodes := (∅ : NodeMap).insert root (.fresh root none none 0)
  order := [root]
  ceilingMicros := none
  sealed := false
  peakConcurrency := 0
  live := 0
  voucherShare := none
  syntheticSent := false
  order_nodup := List.nodup_singleton root
  mem_order := by
    intro k
    rw [AList.mem_insert]
    simp
  id_eq := by
    intro k n h
    by_cases same : k = root
    · subst same
      rw [AList.lookup_insert] at h
      cases h
      rfl
    · rw [AList.lookup_insert_ne same] at h
      simp at h
  root_mem := (AList.mem_insert _).mpr (.inl rfl)

/-- `nodes.insert` of a new node, followed by `order.push`. -/
def insertNode (t : Task) (n : Node) (fresh : n.id ∉ t.nodes) : Task where
  root := t.root
  nodes := t.nodes.insert n.id n
  order := t.order ++ [n.id]
  ceilingMicros := t.ceilingMicros
  sealed := t.sealed
  peakConcurrency := t.peakConcurrency
  live := t.live
  voucherShare := t.voucherShare
  syntheticSent := t.syntheticSent
  order_nodup := by
    refine List.nodup_append.mpr ⟨t.order_nodup, List.nodup_singleton _, ?_⟩
    intro a ha b hb
    rw [List.mem_singleton.mp hb]
    rintro rfl
    exact fresh ((t.mem_order _).mp ha)
  mem_order := by
    intro k
    rw [AList.mem_insert, ← t.mem_order]
    simp [or_comm]
  id_eq := by
    intro k m h
    by_cases same : k = n.id
    · subst same
      rw [AList.lookup_insert] at h
      cases h
      rfl
    · rw [AList.lookup_insert_ne same] at h
      exact t.id_eq k m h
  root_mem := (AList.mem_insert _).mpr (.inr t.root_mem)

/-- `if let Some(n) = nodes.get_mut(k)`: change a stored node, not its id. -/
def modifyNode (t : Task) (k : String) (f : Node → Node) (keep : ∀ n, (f n).id = n.id) : Task :=
  match stored : t.nodes.lookup k with
  | none => t
  | some n =>
    { t with
      nodes := t.nodes.insert k (f n)
      mem_order := by
        intro j
        rw [AList.mem_insert, ← t.mem_order]
        constructor
        · exact .inr
        · rintro (rfl | h)
          · rw [t.mem_order, ← AList.lookup_isSome, stored]
            rfl
          · exact h
      id_eq := by
        intro j m h
        by_cases same : j = k
        · subst same
          rw [AList.lookup_insert] at h
          cases h
          rw [keep, t.id_eq _ _ stored]
        · rw [AList.lookup_insert_ne same] at h
          exact t.id_eq j m h
      root_mem := (AList.mem_insert _).mpr (.inr t.root_mem) }

def withCeilingMicros (t : Task) (micros : UInt64) : Task :=
  { t.modifyNode t.root (.withAllowance micros) (Node.withAllowance_id micros) with
    ceilingMicros := some micros }

def withVoucherShare (t : Task) (share : ℚ) : Task :=
  { t with voucherShare := some (max 0 (min 1 share)) }

/-- Store a node on first sight; a later label only fills an absent one. -/
def ensure (t : Task) (node : String) (parent label : Option String) : Task :=
  if stored : node ∈ t.nodes then
    match label with
    | some l =>
      t.modifyNode node (fun n => { n with label := some (n.label.getD l) }) (fun _ => rfl)
    | none => t
  else
    let depth := ((parent.bind t.nodes.lookup).map fun p => min (p.depth + 1) 255).getD 1
    t.insertNode (.fresh node parent label depth) stored

/-- `nodes.get(id).and_then(|n| n.allowance_micros)`. -/
def voucherOf (t : Task) (id : String) : Option UInt64 :=
  (t.nodes.lookup id).bind Node.allowanceMicros

/-- `nodes.get(id).map(|n| n.sealed).unwrap_or(false)`. -/
def nodeSealed (t : Task) (id : String) : Bool := ((t.nodes.lookup id).map Node.sealed).getD false

def allowanceOf (t : Task) (id : String) : UInt64 :=
  ((t.voucherOf id).or t.ceilingMicros).getD 0

/-- Direct children of a node, in first-seen order. -/
def childrenOf (t : Task) (id : String) : List String :=
  ((t.order.filterMap t.nodes.lookup).filter fun n => n.parent = some id).map Node.id

def mintVoucher [FloatProduct] (t : Task) (ref : NodeRef) : Task :=
  match t.voucherShare with
  | none => t
  | some share =>
    if ref.isRoot then t
    else if (t.voucherOf ref.node).isSome then t
    else
      let parentId := ref.parent.getD t.root
      let parentAllow := t.allowanceOf parentId
      let minted := (((t.childrenOf parentId).filter (· ≠ ref.node)).filterMap t.voucherOf).sum
      let remaining := saturatingSub parentAllow minted
      let allot := FloatProduct.floorMul remaining share
      t.modifyNode ref.node (.withAllowance allot) (Node.withAllowance_id allot)

/-- Called when a request begins. -/
def begin [FloatProduct] (t : Task) (ref : NodeRef) (label : Option String) : Task :=
  let t := (t.ensure ref.node ref.parent label).mintVoucher ref
  { t with live := t.live + 1, peakConcurrency := max t.peakConcurrency (t.live + 1) }

/-- Called when a request finishes. `complete` is false when the terminal usage frame never
arrived. -/
def finish (t : Task) (ref : NodeRef) (usage : Usage) (complete : Bool) : Task :=
  let t := (t.ensure ref.node ref.parent none).modifyNode ref.node (.record usage complete)
    (Node.record_id usage complete)
  { t with live := t.live - 1 }

/-- The stored nodes, in no particular order. -/
def values (t : Task) : List Node := t.nodes.entries.map Sigma.snd

def spentMicros (t : Task) (rates : RateCard) : UInt64 :=
  (t.values.map fun n => n.usage.micros rates).sum

/-- The loop of `subtree_spent_micros`. Children are pushed in order, so the last one is on top;
there is fuel for one round more than there are nodes. -/
def subtreeSpentMicros (t : Task) (id : String) (rates : RateCard) : UInt64 :=
  ParentLinks.traverse (fun cur => (t.childrenOf cur).reverse)
    (fun total cur =>
      match t.nodes.lookup cur with
      | some n => saturatingAdd total (n.usage.micros rates)
      | none => total)
    (t.order.length + 1) [id] [] 0

/-- `Task::admit`: decide whether a new request may proceed. -/
def admitTask (t : Task) (rates : RateCard) : Admission × Task :=
  match t.ceilingMicros with
  | none => (.allow, t)
  | some ceiling =>
    let spent := t.spentMicros rates
    if t.sealed then (.deny spent ceiling, t)
    else if spent ≥ ceiling then (.last, { t with sealed := true })
    else (.allow, t)

/-- Admit a request at a specific node. Root ceiling still binds the tree. -/
def admitAt (t : Task) (ref : NodeRef) (rates : RateCard) : Admission × Task :=
  match t.admitTask rates with
  | (.allow, t) =>
    let cap := t.allowanceOf ref.node
    if cap = 0 ∧ t.ceilingMicros.isNone then (.allow, t)
    else
      let spent := t.subtreeSpentMicros ref.node rates
      if t.nodeSealed ref.node then (.deny spent cap, t)
      else if spent ≥ cap ∧ (t.voucherOf ref.node).isSome then
        (.last, t.modifyNode ref.node .seal Node.seal_id)
      else (.allow, t)
  | (.last, t) => (.last, t)
  | (.deny spent ceiling, t) => (.deny spent ceiling, t)

/-- First stop is a synthetic end_turn; later stops are the hard status. -/
def takeStop (t : Task) : StopStyle × Task :=
  if t.syntheticSent then (.retryableFalse429, t)
  else (.syntheticEndTurn, { t with syntheticSent := true })

end Task

end Tailfin
