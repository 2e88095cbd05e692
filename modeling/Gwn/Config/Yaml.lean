import Mathlib.Data.List.Basic

/-! # YAML nodes

    What gwn uses of yaml-cpp: node trees with scalar keys, `YAML::Load`, and the
    text that `ss << node` makes of a node. The two directions of the text form are
    parameters (`Yaml`); `Node.Within` says which nodes a tree consists of, for what
    the users of a tree assume about its text. -/

namespace Gwn

/-- `YAML::Node`. The pairs of a map are in the order of its iteration. -/
inductive Node where
  | null
  | scalar (text : String)
  | sequence (items : List Node)
  | map (pairs : List (String × Node))

/-- The text form: `YAML::Load`, which may throw, and the emitter behind `ss << node`. -/
structure Yaml where
  load : String → Option Node
  emit : Node → String

namespace Node

/-- `as<std::string>()`, which throws on anything but a scalar. -/
def asString : Node → Option String
  | scalar text => some text
  | _ => none

/-- `node[0]` to `node[node.size() - 1]`. A map is looked up by its keys instead,
    which is not followed here. -/
def items : Node → Option (List Node)
  | sequence items => some items
  | map (_ :: _) => none
  | _ => some []

/-- The pairs from `begin()` to `end()`. The items of a sequence have no keys, and
    asking for one throws. -/
def pairs : Node → Option (List (String × Node))
  | map pairs => some pairs
  | sequence (_ :: _) => none
  | _ => some []

/-- `node[key]`: throws on a scalar; `some none` is a node that is not defined. -/
def get (key : String) : Node → Option (Option Node)
  | scalar _ => none
  | map pairs => some ((pairs.find? fun p => p.1 = key).map Prod.snd)
  | _ => some none

/-- `n` is a node of the tree. -/
inductive Within (n : Node) : Node → Prop where
  | root : Within n n
  | item {items m} : m ∈ items → Within n m → Within n (sequence items)
  | value {pairs p} : p ∈ pairs → Within n p.2 → Within n (map pairs)

/-- Induction along the maps of a tree. -/
theorem induct {P : Node → Prop} (leaf : ∀ n : Node, (∀ pairs, n ≠ map pairs) → P n)
    (hmap : ∀ pairs : List (String × Node), (∀ p ∈ pairs, P p.2) → P (map pairs))
    (n : Node) : P n :=
  @Node.rec P (fun _ => True) (fun pairs => ∀ p ∈ pairs, P p.2) (fun p => P p.2)
    (leaf _ nofun) (fun _ => leaf _ nofun) (fun _ _ => leaf _ nofun) hmap
    trivial (fun _ _ _ _ => trivial)
    nofun (fun _ _ hp hpairs => List.forall_mem_cons.mpr ⟨hp, hpairs⟩)
    (fun _ _ h => h) n

end Node

end Gwn
