import ShortReel.JsonText
import ShortReel.UpstreamChains

/-!
# The graph of a workflow

`graph.py`: the links of a ComfyUI workflow, the nodes upstream of a node and the length of its longest
upstream chain. What `str` makes of a value that is no string is a parameter.
-/

namespace ShortReel.ComfyGraph

open InsertionDict JsonText UpstreamChains

section Links

variable {F : Type} (str : Json F → Text)

def nodeInputs (node : Fields F) : Fields F :=
  match get node (text "inputs") with
  | some (.object inputs) => inputs
  | _ => []

/-- `str` of the first value of a link. -/
def nodeName : Json F → Text
  | .string name => name
  | value => str value

/-- `int` of the second value when it is one; truth values are. -/
def slotOf : Json F → ℤ
  | .int slot => slot
  | .bool value => if value then 1 else 0
  | _ => 0

/-- `link_of`: the node and the slot that a value is linked to. For `is_link` a list of two values is a
link; an object that wraps a literal list is no list. -/
def linkOf (raw : Json F) : Option (Text × ℤ) :=
  match raw with
  | .list [source, slot] => some (nodeName str source, slotOf slot)
  | _ => none

/-- `upstream_of`: the names of the linked fields of a node with their links. -/
def upstreamOf (workflow : Fields F) (nodeId : Text) : List (Text × (Text × ℤ)) :=
  match get workflow nodeId with
  | some (.object node) =>
      (nodeInputs node).filterMap fun field => (linkOf str field.2).map fun link => (field.1, link)
  | _ => []

def parentsOf (workflow : Fields F) (nodeId : Text) : List Text :=
  (upstreamOf str workflow nodeId).map fun edge => edge.2.1

def nodeIds (workflow : Fields F) (nodeId : Text) : List Text :=
  (nodeId :: (keys workflow).flatMap (parentsOf str workflow)).dedup

end Links

section Walks

variable {κ : Type} [DecidableEq κ] (parents : κ → List κ)

structure Search (κ : Type) where
  seen : List κ
  stack : List κ

def Search.visit (root : κ) (search : Search κ) (parent : κ) : Search κ :=
  if parent ∉ search.seen ∧ parent ≠ root then ⟨parent :: search.seen, parent :: search.stack⟩
  else search

/-- One turn of the loop of `ancestors`. -/
def Search.step (root : κ) (search : Search κ) : Option (Search κ) :=
  match search.stack with
  | [] => none
  | current :: stack => some ((parents current).foldl (Search.visit root) ⟨search.seen, stack⟩)

/-- The depths that are known, the nodes of the current path and the stack with its top in front. -/
structure Descent (κ : Type) where
  memo : Dict κ ℕ
  onPath : List κ
  stack : List (κ × Bool)

def depthAbove (memo : Dict κ ℕ) (current : κ) : ℕ :=
  if parents current = [] then 0
  else 1 + ((parents current).map fun parent => (get memo parent).getD 0).foldr max 0

/-- One turn of the loop of `dependency_depth`. -/
def Descent.step (descent : Descent κ) : Option (Descent κ) :=
  match descent.stack with
  | [] => none
  | (current, true) :: stack =>
      some ⟨put descent.memo current (depthAbove parents descent.memo current),
        descent.onPath.filter (· ≠ current), stack⟩
  | (current, false) :: stack =>
      if current ∈ keys descent.memo then some { descent with stack }
      else
        let onPath := current :: descent.onPath
        let waiting := (parents current).filter fun parent =>
          parent ∉ keys descent.memo ∧ parent ∉ onPath
        some ⟨descent.memo, onPath,
          (waiting.map fun parent => (parent, false)).reverse ++ (current, true) :: stack⟩

end Walks

section Results

variable {F : Type} (str : Json F → Text) (workflow : Fields F) (nodeId : Text)

/-- Each turn takes a node off the stack, and puts those on it that were not seen. -/
def ancestors : Option (List Text) :=
  (turns (Search.step (parentsOf str workflow) nodeId) ((nodeIds str workflow nodeId).length + 2)
    ⟨[], [nodeId]⟩).map Search.seen

def dependencyDepth : Option ℕ :=
  (turns (Descent.step (parentsOf str workflow))
    (((nodeIds str workflow nodeId).map fun node => 1 + (parentsOf str workflow node).length).sum + 2)
    ⟨[], [], [(nodeId, false)]⟩).bind fun descent => get descent.memo nodeId

end Results

end ShortReel.ComfyGraph
