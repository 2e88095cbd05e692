import Gwn.Config.Yaml
import Gwn.Framework.Keyed
import Gwn.Framework.Ordered
import Mathlib.Data.String.Basic

/-! # Loading a configuration

    `Config::LookUp` and `Config::LoadFromYaml` (gwn/config.h, gwn/config.cc): the
    registry of the variables of a program, and the walk over a tree that gives them
    their values. The listeners of a variable may throw; they do not register or set
    variables. -/

namespace Gwn.Config

open LTS

/-! ### Variables -/

/-- What `ConfigVar<T>` uses of `T` to take a value: `operator==` and `FromStr`, which may throw. -/
structure VarType where
  T : Type
  eq : T → T → Bool
  fromStr : String → Option T

section registry
variable {K : Type} {types : K → VarType}

/-- `::tolower` of all characters. -/
def tolower (s : String) : String :=
  String.ofList (s.toList.map Char.toLower)

/-- `ConfigVar<T>`; the types are told apart by their `typeid`. -/
structure ConfigVar (types : K → VarType) where
  type : K
  name : String
  description : String
  val : (types type).T
  /-- Whether a listener returns or throws. -/
  cbs : Ordered (Prod.fst : Nat × ((types type).T → (types type).T → Bool) → Nat)

namespace ConfigVar

/-- The constructor. -/
def new (types : K → VarType) (type : K) (name : String) (default_value : (types type).T)
    (description : String) : ConfigVar types :=
  { type := type, name := tolower name, description := description, val := default_value
    cbs := Ordered.empty }

/-- `none` if a listener throws, which leaves the variable as it is. -/
def setValue (var : ConfigVar types) (v : (types var.type).T) : Option (ConfigVar types) :=
  if (types var.type).eq v var.val then some var
  else if var.cbs.entries.all fun i => i.2 var.val v then some { var with val := v }
  else none

/-- Returns the variable and the result. -/
def fromString (var : ConfigVar types) (val : String) : ConfigVar types × Bool :=
  match ((types var.type).fromStr val).bind var.setValue with
  | some var' => (var', true)
  | none => (var, false)

end ConfigVar

/-! ### The registry -/

/-- `GetDatas()`. -/
abbrev Registry (types : K → VarType) := String → Option (ConfigVar types)

def alphabet : List Char := "abcdefghikjlmnopqrstuvwxyz._012345678".toList

/-- `name.find_first_not_of(alphabet) == npos`. -/
def validName (name : String) : Bool :=
  name.toList.all fun c => c ∈ alphabet

/-- `LookUp(name, default_value, description)`; `none` where it throws. The result
    is null when the variable of this name has another type. -/
def LookUp [DecidableEq K] (type : K) (name : String) (default_value : (types type).T)
    (description : String)
    (datas : Registry types) : Option (Registry types × Option (ConfigVar types)) :=
  match datas name with
  | some var => some (datas, if var.type = type then some var else none)
  | none =>
    if !validName name then none
    else
      let v := ConfigVar.new types type name default_value description
      some (Function.update datas name (some v), some v)

/-- `LookupBase(name)`. -/
def LookupBase (datas : Registry types) (name : String) : Option (ConfigVar types) :=
  datas name

/-- The registries that come about by `LookUp`, the variables in them being changed
    by whoever has them. -/
inductive Created [DecidableEq K] : Registry types → Prop where
  | none : Created fun _ => none
  | lookUp {datas datas' : Registry types} {type name default_value description v} :
      Created datas → LookUp type name default_value description datas = some (datas', v) →
      Created datas'
  | change {datas : Registry types} {name var} (val : (types var.type).T) (cbs) :
      Created datas → datas name = some var →
      Created (Function.update datas name (some { var with val := val, cbs := cbs }))

theorem Created.validName [DecidableEq K] {datas : Registry types} (h : Created datas)
    {name : String}
    {var : ConfigVar types} (hvar : datas name = some var) : validName name = true := by
  induction h generalizing var with
  | none => cases hvar
  | @lookUp datas datas' type name' default_value description v _ hlook ih =>
    unfold LookUp at hlook
    split at hlook
    · cases hlook
      exact ih hvar
    · split at hlook
      · cases hlook
      · next hvalid =>
        cases hlook
        by_cases hname : name = name'
        · simpa [hname] using hvalid
        · rw [Function.update_of_ne hname] at hvar
          exact ih hvar
  | @change datas name' var' val cbs _ hdatas ih =>
    by_cases hname : name = name'
    · exact hname ▸ ih (hname ▸ hdatas)
    · rw [Function.update_of_ne hname] at hvar
      exact ih hvar

end registry

/-! ### The walk -/

/-- The name of a member: `prefix.empty() ? key : prefix + "." + key`. -/
def memberName (pre key : String) : String :=
  if pre = "" then key else pre ++ "." ++ key

mutual

def ListAllMember (pre : String) : Node → List (String × Node)
  | .map pairs => if !validName pre then [] else (pre, .map pairs) :: listMembers pre pairs
  | node => if !validName pre then [] else [(pre, node)]

/-- The loop over the pairs of a map. -/
def listMembers (pre : String) : List (String × Node) → List (String × Node)
  | [] => []
  | it :: pairs => listMember pre it ++ listMembers pre pairs

def listMember (pre : String) : String × Node → List (String × Node)
  | (key, node) => ListAllMember (memberName pre key) node

end

section load
variable {K : Type} {types : K → VarType} (Y : Yaml)

/-- The text of a node that a variable is given. -/
def text (node : Node) : String :=
  match node with
  | .scalar text => text
  | node => Y.emit node

/-- The loop over `all_nodes`, for one of them. -/
def loadNode (datas : Registry types) (i : String × Node) : Registry types :=
  if i.1 = "" then datas
  else
    let key := tolower i.1
    match LookupBase datas key with
    | some var => Function.update datas key (some (var.fromString (text Y i.2)).1)
    | none => datas

def LoadFromYaml (root : Node) (datas : Registry types) : Registry types :=
  (ListAllMember "" root).foldl (loadNode Y) datas

end load

/-! ### The nodes of a tree and their keys -/

mutual

/-- The nodes in pre-order, each with its keys from the root on. The items of a
    sequence have no key. -/
def nodes (keys : List String) : Node → List (List String × Node)
  | .map pairs => (keys, .map pairs) :: nodesOfPairs keys pairs
  | node => [(keys, node)]

def nodesOfPairs (keys : List String) : List (String × Node) → List (List String × Node)
  | [] => []
  | p :: pairs => nodesOfPair keys p ++ nodesOfPairs keys pairs

def nodesOfPair (keys : List String) : String × Node → List (List String × Node)
  | (key, node) => nodes (keys ++ [key]) node

end

/-- The keys joined by a dot. -/
def joined (keys : List String) : String := ".".intercalate keys

/-- The keys of all maps of a tree are non-empty. -/
def Keyed (root : Node) : Prop :=
  ∀ pairs, (Node.map pairs).Within root → ∀ p ∈ pairs, p.1 ≠ ""

theorem Keyed.value {pairs : List (String × Node)} (h : Keyed (.map pairs)) :
    ∀ p ∈ pairs, p.1 ≠ "" ∧ Keyed p.2 :=
  fun p hp => ⟨h pairs .root p hp, fun l hl => h l (.value hp hl)⟩

theorem joined_ne_empty {keys : List String} (hkeys : ∀ k ∈ keys, k ≠ "")
    (hnil : keys ≠ []) :
    joined keys ≠ "" := by
  obtain ⟨k, keys, rfl⟩ := List.exists_cons_of_ne_nil hnil
  intro h
  by_cases hrest : keys = []
  · subst hrest
    exact hkeys k List.mem_cons_self (by simpa [joined] using h)
  · unfold joined at h
    rw [String.intercalate_cons_of_ne_nil hrest] at h
    have h := congrArg String.toList h
    simp at h

theorem joined_ne_empty_iff {keys : List String} (hkeys : ∀ k ∈ keys, k ≠ "") :
    joined keys ≠ "" ↔ keys ≠ [] := by
  constructor
  · rintro h rfl
    exact h rfl
  · exact joined_ne_empty hkeys

/-- The walk joins the keys as it goes down. -/
theorem memberName_joined {keys : List String} (hkeys : ∀ k ∈ keys, k ≠ "") (key : String) :
    memberName (joined keys) key = joined (keys ++ [key]) := by
  unfold memberName
  by_cases hnil : keys = []
  · subst hnil
    simp [joined]
  · rw [if_neg (joined_ne_empty hkeys hnil)]
    unfold joined
    rw [String.intercalate_append_of_ne_nil hnil (by simp), String.intercalate_singleton]

theorem joined_append (keys rest : List String) :
    ∃ t, joined (keys ++ rest) = joined keys ++ t := by
  unfold joined
  by_cases hkeys : keys = []
  · exact ⟨joined rest, by simp [hkeys, joined]⟩
  · by_cases hrest : rest = []
    · exact ⟨"", by simp [hrest]⟩
    · refine ⟨"." ++ joined rest, ?_⟩
      rw [String.intercalate_append_of_ne_nil hkeys hrest, String.append_assoc]
      rfl

theorem validName_append (s t : String) : validName (s ++ t) = (validName s && validName t) := by
  simp [validName, String.toList_append, List.all_append]

/-- The keys of a node are those it is listed under, followed by keys of the tree. -/
def Below (keys : List String) (e : List String × Node) : Prop :=
  ∃ rest, e.1 = keys ++ rest ∧ ∀ k ∈ rest, k ≠ ""

theorem Below.step {keys : List String} {key : String} {e : List String × Node} (hkey : key ≠ "")
    (h : Below (keys ++ [key]) e) : Below keys e := by
  obtain ⟨rest, he, hrest⟩ := h
  refine ⟨key :: rest, by simpa using he, ?_⟩
  intro k hk
  rcases List.mem_cons.mp hk with rfl | hk
  · exact hkey
  · exact hrest k hk

theorem nodes_leaf {keys : List String} {n : Node} (h : ∀ pairs, n ≠ .map pairs) :
    nodes keys n = [(keys, n)] := by
  cases n with
  | map pairs => exact absurd rfl (h pairs)
  | _ => rfl

theorem ListAllMember_leaf {pre : String} {n : Node} (h : ∀ pairs, n ≠ .map pairs) :
    ListAllMember pre n = if !validName pre then [] else [(pre, n)] := by
  cases n with
  | map pairs => exact absurd rfl (h pairs)
  | _ => rfl

theorem ListAllMember_invalid {pre : String} {n : Node} (h : ¬ validName pre = true) :
    ListAllMember pre n = [] := by
  cases n <;> simp [ListAllMember, h]

theorem nodesOfPairs_eq (keys : List String) (pairs : List (String × Node)) :
    nodesOfPairs keys pairs = pairs.flatMap fun p => nodes (keys ++ [p.1]) p.2 := by
  induction pairs with
  | nil => rfl
  | cons p pairs ih =>
    obtain ⟨key, n⟩ := p
    rw [nodesOfPairs, ih, List.flatMap_cons, nodesOfPair]

theorem listMembers_eq (pre : String) (pairs : List (String × Node)) :
    listMembers pre pairs = pairs.flatMap fun it => ListAllMember (memberName pre it.1) it.2 := by
  induction pairs with
  | nil => rfl
  | cons it pairs ih =>
    obtain ⟨key, n⟩ := it
    rw [listMembers, ih, List.flatMap_cons, listMember]

theorem ListAllMember_map {pre : String} (h : validName pre = true)
    (pairs : List (String × Node)) :
    ListAllMember pre (.map pairs)
      = (pre, .map pairs) :: pairs.flatMap fun it => ListAllMember (memberName pre it.1) it.2 := by
  rw [ListAllMember, h, listMembers_eq]
  rfl

theorem nodes_map (keys : List String) (pairs : List (String × Node)) :
    nodes keys (.map pairs)
      = (keys, .map pairs) :: pairs.flatMap fun p => nodes (keys ++ [p.1]) p.2 := by
  rw [nodes, nodesOfPairs_eq]

theorem nodes_below {n : Node} (hn : Keyed n) (keys : List String) :
    ∀ e ∈ nodes keys n, Below keys e := by
  induction n using Node.induct generalizing keys with
  | leaf n hleaf =>
    intro e he
    rw [nodes_leaf hleaf] at he
    rw [List.mem_singleton.mp he]
    exact ⟨[], by simp, nofun⟩
  | hmap pairs ih =>
    intro e he
    rw [nodes_map] at he
    rcases List.mem_cons.mp he with rfl | he
    · exact ⟨[], by simp, nofun⟩
    · obtain ⟨p, hp, he⟩ := List.mem_flatMap.mp he
      obtain ⟨hkey, hvalue⟩ := hn.value p hp
      exact (ih p hp hvalue (keys ++ [p.1]) e he).step hkey

theorem keys_ne_empty {root : Node} (hroot : Keyed root) {e : List String × Node}
    (he : e ∈ nodes [] root) : ∀ k ∈ e.1, k ≠ "" := by
  obtain ⟨rest, hrest, hkeys⟩ := nodes_below hroot [] e he
  rw [hrest]
  exact hkeys

/-! ### What the walk lists -/

/-- Under a prefix that is not a name, no node has the name of a variable. -/
theorem nodes_invalid {n : Node} (hn : Keyed n) {keys : List String}
    (hkeys : ¬ validName (joined keys) = true)
    {name : String} (hname : validName name = true) :
    (nodes keys n).filter (fun e => joined e.1 = name) = [] := by
  rw [List.filter_eq_nil_iff]
  intro e he
  obtain ⟨rest, hrest, -⟩ := nodes_below hn keys e he
  obtain ⟨t, ht⟩ := joined_append keys rest
  rw [decide_eq_true_eq, hrest, ht]
  rintro rfl
  rw [validName_append, Bool.and_eq_true] at hname
  exact hkeys hname.1

/-- Of a name that a variable can have, the walk lists the nodes with these keys, in
    the same order. -/
theorem ListAllMember_filter {name : String} (hname : validName name = true) {n : Node}
    (hn : Keyed n) {keys : List String} (hkeys : ∀ k ∈ keys, k ≠ "") :
    (ListAllMember (joined keys) n).filter (fun i => i.1 = name)
      = ((nodes keys n).filter fun e => joined e.1 = name).map fun e => (joined e.1, e.2) := by
  induction n using Node.induct generalizing keys with
  | leaf n hleaf =>
    by_cases hvalid : validName (joined keys) = true
    · rw [ListAllMember_leaf hleaf, nodes_leaf hleaf, hvalid]
      by_cases heq : joined keys = name <;> simp [heq]
    · rw [ListAllMember_invalid hvalid, nodes_invalid hn hvalid hname]
      rfl
  | hmap pairs ih =>
    by_cases hvalid : validName (joined keys) = true
    · have hpairs : ∀ p ∈ pairs,
          (ListAllMember (memberName (joined keys) p.1) p.2).filter (fun i => i.1 = name)
            = ((nodes (keys ++ [p.1]) p.2).filter fun e => joined e.1 = name).map
              fun e => (joined e.1, e.2) := by
        intro p hp
        obtain ⟨hkey, hvalue⟩ := hn.value p hp
        rw [memberName_joined hkeys]
        apply ih p hp hvalue
        intro k hk
        rcases List.mem_append.mp hk with hk | hk
        · exact hkeys k hk
        · rwa [List.mem_singleton.mp hk]
      have hrest : (pairs.flatMap fun p => ListAllMember (memberName (joined keys) p.1) p.2).filter
            (fun i => i.1 = name)
          = ((pairs.flatMap fun p => nodes (keys ++ [p.1]) p.2).filter
              fun e => joined e.1 = name).map fun e => (joined e.1, e.2) := by
        rw [List.filter_flatMap, List.filter_flatMap, List.map_flatMap]
        exact List.flatMap_congr hpairs
      rw [ListAllMember_map hvalid, nodes_map]
      by_cases heq : joined keys = name
      · rw [List.filter_cons_of_pos (by simpa using heq),
          List.filter_cons_of_pos (by simpa using heq), List.map_cons, hrest]
      · rw [List.filter_cons_of_neg (by simpa using heq),
          List.filter_cons_of_neg (by simpa using heq), hrest]
    · rw [ListAllMember_invalid hvalid, nodes_invalid hn hvalid hname]
      rfl

/-! ### Loading -/

section updates
variable {K : Type} {types : K → VarType} {Y : Yaml}

theorem tolower_eq {s : String} (h : validName s = true) : tolower s = s := by
  have hall : (alphabet.all fun c => c.toLower == c) = true := rfl
  have hlower : ∀ c ∈ alphabet, c.toLower = c := by
    intro c hc
    exact eq_of_beq (List.all_eq_true.mp hall c hc)
  unfold tolower
  rw [List.map_congr_left (g := id) fun c hc =>
    hlower c (by simpa using List.all_eq_true.mp h c hc),
    List.map_id, String.ofList_toList]

theorem ListAllMember_valid {n : Node} (pre : String) :
    ∀ i ∈ ListAllMember pre n, validName i.1 = true := by
  induction n using Node.induct generalizing pre with
  | leaf n hleaf =>
    intro i hi
    rw [ListAllMember_leaf hleaf] at hi
    by_cases hvalid : validName pre = true
    · rw [hvalid] at hi
      rw [List.mem_singleton.mp hi]
      exact hvalid
    · simp [hvalid] at hi
  | hmap pairs ih =>
    intro i hi
    by_cases hvalid : validName pre = true
    · rw [ListAllMember_map hvalid] at hi
      rcases List.mem_cons.mp hi with rfl | hi
      · exact hvalid
      · obtain ⟨p, hp, hi⟩ := List.mem_flatMap.mp hi
        exact ih p hp _ i hi
    · rw [ListAllMember_invalid hvalid] at hi
      cases hi

/-- One node changes the variable of its name and no other. -/
theorem loadNode_apply {datas : Registry types} {i : String × Node} (hi : validName i.1 = true)
    (name : String) :
    loadNode Y datas i name =
      if i.1 ≠ "" ∧ i.1 = name then (datas name).map fun var => (var.fromString (text Y i.2)).1
      else datas name := by
  unfold loadNode LookupBase
  by_cases hempty : i.1 = ""
  · simp [hempty]
  rw [if_neg hempty, tolower_eq hi]
  by_cases hname : i.1 = name
  · rw [if_pos ⟨hempty, hname⟩, hname]
    cases hvar : datas name with
    | none => exact hvar
    | some var => simp
  · rw [if_neg fun h => hname h.2]
    cases hvar : datas i.1 with
    | none => rfl
    | some var => exact Function.update_of_ne (Ne.symm hname) _ _

theorem foldl_loadNode {l : List (String × Node)} (hl : ∀ i ∈ l, validName i.1 = true)
    (datas : Registry types) (name : String) :
    l.foldl (loadNode Y) datas name = (datas name).map fun var =>
      (l.filter fun i => i.1 ≠ "" ∧ i.1 = name).foldl
        (fun var i => (var.fromString (text Y i.2)).1) var := by
  induction l generalizing datas with
  | nil => simp
  | cons i l ih =>
    obtain ⟨hi, hl⟩ := List.forall_mem_cons.mp hl
    rw [List.foldl_cons, ih hl, loadNode_apply hi]
    by_cases hname : i.1 ≠ "" ∧ i.1 = name
    · rw [if_pos hname, List.filter_cons_of_pos (by simpa using hname), Option.map_map]
      rfl
    · rw [if_neg hname, List.filter_cons_of_neg (by simpa using hname)]

/-- The values that the nodes `l` of a tree give a variable, one after the other. -/
def ConfigVar.load (Y : Yaml) (var : ConfigVar types) (l : List (List String × Node)) :
    ConfigVar types :=
  l.foldl (fun var e => (var.fromString (text Y e.2)).1) var

/-- In a registry that comes about by `LookUp`, loading a tree whose keys are not
    empty applies `fromString` to each variable, for exactly the nodes under one or
    more keys which joined are its name, in pre-order. Other variables are as before.
    The walk lists all nodes that have the name of a variable. -/
theorem LoadFromYaml_updates [DecidableEq K] {datas : Registry types}
    (hdatas : Created datas) {root : Node} (hroot : Keyed root) :
    (∀ name, LoadFromYaml Y root datas name = (datas name).map fun var =>
      var.load Y ((nodes [] root).filter fun e => e.1 ≠ [] ∧ joined e.1 = name))
    ∧ (∀ name, (∀ e ∈ nodes [] root, e.1 ≠ [] → joined e.1 ≠ name) →
      LoadFromYaml Y root datas name = datas name)
    ∧ ∀ e ∈ nodes [] root, (datas (joined e.1)).isSome = true →
      (joined e.1, e.2) ∈ ListAllMember "" root := by
  have hlist : ∀ {name}, validName name = true →
      (ListAllMember "" root).filter (fun i => i.1 = name)
        = ((nodes [] root).filter fun e => joined e.1 = name).map fun e => (joined e.1, e.2) := by
    intro name hname
    have hkeys : ∀ k ∈ ([] : List String), k ≠ "" := nofun
    exact ListAllMember_filter hname hroot hkeys
  have hload : ∀ name, LoadFromYaml Y root datas name = (datas name).map fun var =>
      var.load Y ((nodes [] root).filter fun e => e.1 ≠ [] ∧ joined e.1 = name) := by
    intro name
    unfold LoadFromYaml
    rw [foldl_loadNode (ListAllMember_valid "")]
    cases hvar : datas name with
    | none => rfl
    | some var =>
      have hname : validName name = true := hdatas.validName hvar
      have hsplit : (ListAllMember "" root).filter (fun i => i.1 ≠ "" ∧ i.1 = name)
          = ((nodes [] root).filter fun e => e.1 ≠ [] ∧ joined e.1 = name).map
            fun e => (joined e.1, e.2) := by
        simp only [Bool.decide_and]
        rw [← List.filter_filter, hlist hname, List.filter_map, ← List.filter_filter]
        congr 1
        apply List.filter_congr
        intro e he
        have hkeys := joined_ne_empty_iff (keys_ne_empty hroot (List.mem_filter.mp he).1)
        rw [Function.comp_apply, decide_eq_decide]
        exact hkeys
      rw [Option.map_some, Option.map_some, hsplit, List.foldl_map]
      rfl
  refine ⟨hload, ?_, ?_⟩
  · intro name hnone
    rw [hload]
    have hnil : (nodes [] root).filter (fun e => e.1 ≠ [] ∧ joined e.1 = name) = [] := by
      rw [List.filter_eq_nil_iff]
      intro e he
      simpa using hnone e he
    rw [hnil]
    cases datas name <;> rfl
  · intro e he hsome
    obtain ⟨var, hvar⟩ := Option.isSome_iff_exists.mp hsome
    have hmem : (joined e.1, e.2) ∈ (ListAllMember "" root).filter fun i => i.1 = joined e.1 := by
      rw [hlist (hdatas.validName hvar)]
      exact List.mem_map.mpr ⟨e, List.mem_filter.mpr ⟨he, by simp⟩, rfl⟩
    exact (List.mem_filter.mp hmem).1

end updates

/-- `std::string`. -/
def stringType : VarType :=
  { T := String, eq := fun a b => a = b, fromStr := some }

/-- A registry of variables of strings that has one with this name. -/
def oneVar (name : String) : Registry fun _ : Unit => stringType :=
  Function.update (fun _ => none) name (some (ConfigVar.new _ () name "0" "one"))

theorem oneVar_created {name : String} (h : validName name = true) : Created (oneVar name) := by
  have hlook : LookUp () name "0" "one" (fun _ => none)
      = some (oneVar name, some (ConfigVar.new (fun _ => stringType) () name "0" "one")) := by
    simp [LookUp, h, oneVar]
  exact Created.none.lookUp hlook

/-- The text form of scalars. -/
def plain : Yaml :=
  { load := fun text => some (.scalar text)
    emit := fun
      | .scalar text => text
      | _ => "~" }

/-- The variable "a.b" and a tree with `a: {b: 5}`. -/
theorem LoadFromYaml_updates_member :
    (LoadFromYaml plain (.map [("a", .map [("b", .scalar "5")])]) (oneVar "a.b") "a.b").map
      ConfigVar.val = some "5" := by
  have hroot : Keyed (.map [("a", .map [("b", .scalar "5")])]) := by
    intro pairs hpairs p hp
    cases hpairs with
    | root =>
      rw [List.mem_singleton.mp hp]
      decide
    | value hq hpairs =>
      rw [List.mem_singleton.mp hq] at hpairs
      cases hpairs with
      | root =>
        rw [List.mem_singleton.mp hp]
        decide
      | value hq hpairs =>
        rw [List.mem_singleton.mp hq] at hpairs
        cases hpairs
  rw [(LoadFromYaml_updates (oneVar_created (by decide)) hroot).1]
  rfl

/-- The root is skipped, although a variable can have the empty name. -/
theorem not_LoadFromYaml_root : ¬ ∀ (K : Type) [DecidableEq K] (types : K → VarType) (Y : Yaml)
    (datas : Registry types) (root : Node), Created datas → Keyed root →
    ∀ name, LoadFromYaml Y root datas name = (datas name).map fun var =>
      var.load Y ((nodes [] root).filter fun e => joined e.1 = name) := by
  intro h
  have hroot : Keyed (.scalar "5") := by
    intro pairs hpairs
    cases hpairs
  have hload := h Unit _ plain (oneVar "") (.scalar "5") (oneVar_created (by decide)) hroot ""
  have hval : (some "0" : Option String) = some "5" :=
    congrArg (Option.map fun var : ConfigVar (fun _ : Unit => stringType) =>
      (var.val : String)) hload
  exact absurd hval (by decide)

end Gwn.Config
