import Gwn.Config.Load
import Mathlib.Data.Fintype.Card

/-! # Documents with aliases

    An alias is a reference to the node of its anchor, so a document is a graph of nodes;
    an anchor can be referred to from inside its own map. `ListAllMember` (gwn/config.cc)
    calls itself for the members of a map and keeps no record of where it has been:

    - `Document`, `ListAllMember`, `LoadFromYaml`: the walk, with a bound on its depth
    - `ListAllMember_tree`, `LoadFromYaml_tree`: on a document that is a tree this is the walk
      over the tree
    - `Recurs`: a map that is reached through names contains itself through names
    - `returns_iff`: loading a document returns if and only if it does not recur -/

namespace Gwn.Config

/-! ### Documents -/

/-- A node of a document with `n` nodes. -/
inductive Cell (n : Nat) where
  | null
  | scalar (text : String)
  | sequence (items : List (Fin n))
  /-- Keys and values, in the order of the iteration. -/
  | map (pairs : List (Fin n × Fin n))

/-- The nodes that yaml-cpp builds from a document. -/
structure Document where
  size : Nat
  cell : Fin size → Cell size
  root : Fin size

/-- The results of a loop that appends what each call lists; `none` if one does not return. -/
def appendAll {α β : Type} (f : α → Option (List β)) : List α → Option (List β)
  | [] => some []
  | a :: l => (f a).bind fun x => (appendAll f l).map (x ++ ·)

namespace Document

variable (D : Document)

/-- `Scalar()`. -/
def Scalar (node : Fin D.size) : String :=
  match D.cell node with
  | .scalar text => text
  | _ => ""

/-- `none` if the calls are nested deeper than `fuel`. -/
def ListAllMember : Nat → String → Fin D.size → Option (List (String × Fin D.size))
  | 0, _, _ => none
  | fuel + 1, pre, node =>
    if !validName pre then some []
    else match D.cell node with
      | .map pairs =>
        (appendAll (fun it => ListAllMember fuel (memberName pre (D.Scalar it.1)) it.2) pairs).map
          ((pre, node) :: ·)
      | _ => some [(pre, node)]

section load
variable {K : Type} {types : K → VarType} (emit : Fin D.size → String)

/-- The text of a node that a variable is given; `emit` is what `ss << node` makes of it. -/
def text (node : Fin D.size) : String :=
  match D.cell node with
  | .scalar text => text
  | _ => emit node

/-- The loop over `all_nodes`, for one of them. -/
def loadNode (datas : Registry types) (i : String × Fin D.size) : Registry types :=
  if i.1 = "" then datas
  else
    let key := tolower i.1
    (LookupBase datas key).elim datas fun var =>
      Function.update datas key (some (var.fromString (D.text emit i.2)).1)

/-- `Config::LoadFromYaml`, for the root of the document. -/
def LoadFromYaml (fuel : Nat) (datas : Registry types) : Option (Registry types) :=
  (D.ListAllMember fuel "" D.root).map fun all_nodes => all_nodes.foldl (D.loadNode emit) datas

/-- `ListAllMember("", root, all_nodes)` comes to an end, and so does `LoadFromYaml`. -/
def Returns (datas : Registry types) : Prop :=
  (∃ fuel, (D.ListAllMember fuel "" D.root).isSome) ∧
    ∃ fuel, (D.LoadFromYaml emit fuel datas).isSome

end load

/-- `m` is the value of a key of the map `n`, and the key could be part of a name. -/
def Member (n m : Fin D.size) : Prop :=
  ∃ pairs, D.cell n = .map pairs ∧ ∃ p ∈ pairs, p.2 = m ∧ validName (D.Scalar p.1) = true

/-- From the root one gets through such keys to a map, and from there to the map again. -/
def Recurs : Prop :=
  ∃ n, Relation.ReflTransGen D.Member D.root n ∧ Relation.TransGen D.Member n n

/-- A node and what is below it, as a tree. -/
inductive Tree : Fin D.size → Node → Prop where
  | null {node} : D.cell node = .null → Tree node .null
  | scalar {node text} : D.cell node = .scalar text → Tree node (.scalar text)
  | sequence {node items items'} :
      D.cell node = .sequence items → items.length = items'.length →
      (∀ p ∈ items.zip items', Tree p.1 p.2) → Tree node (.sequence items')
  | map {node pairs pairs'} : D.cell node = .map pairs →
      pairs.map (fun it => D.Scalar it.1) = pairs'.map Prod.fst →
      (∀ p ∈ pairs.zip pairs', Tree p.1.2 p.2.2) → Tree node (.map pairs')

/-- An entry of the two lists. -/
def SameEntry (i : String × Fin D.size) (j : String × Node) : Prop :=
  i.1 = j.1 ∧ D.Tree i.2 j.2

end Document

/-! ### Loops -/

section loops
variable {α β γ δ : Type} {f g : α → Option (List β)} {l : List α}

theorem appendAll_isSome : (appendAll f l).isSome ↔ ∀ a ∈ l, (f a).isSome := by
  induction l with
  | nil => simp [appendAll]
  | cons a l ih =>
    rw [List.forall_mem_cons, ← ih, appendAll]
    cases f a with
    | none => simp
    | some x => simp

/-- Calls that return give the same in another run. -/
theorem appendAll_congr (h : ∀ a ∈ l, f a = g a) : appendAll f l = appendAll g l := by
  induction l with
  | nil => rfl
  | cons a l ih =>
    obtain ⟨ha, hl⟩ := List.forall_mem_cons.mp h
    rw [appendAll, appendAll, ha, ih hl]

/-- A loop of calls that return, given what each of them returns. -/
theorem appendAll_rel {f : α → Option (List β)} {l : List α} {l' : List γ}
    {R : β → δ → Prop} {h : γ → List δ}
    (hl : List.Forall₂ (fun a c => ∃ x, f a = some x ∧ List.Forall₂ R x (h c)) l l') :
    ∃ x, appendAll f l = some x ∧ List.Forall₂ R x (l'.flatMap h) := by
  induction hl with
  | nil => exact ⟨[], rfl, .nil⟩
  | @cons a c l l' ha _ ih =>
    obtain ⟨x, hx, hR⟩ := ha
    obtain ⟨y, hy, hR'⟩ := ih
    refine ⟨x ++ y, ?_, ?_⟩
    · rw [appendAll, hx, Option.bind_some, hy]
      rfl
    · rw [List.flatMap_cons]
      exact List.rel_append hR hR'

/-- Finitely many bounds have a common one. -/
theorem exists_bound {P : α → Nat → Prop} (hmono : ∀ a m n, m ≤ n → P a m → P a n)
    (h : ∀ a ∈ l, ∃ n, P a n) : ∃ n, ∀ a ∈ l, P a n := by
  induction l with
  | nil => exact ⟨0, fun a ha => absurd ha List.not_mem_nil⟩
  | cons a l ih =>
    obtain ⟨ha, hl⟩ := List.forall_mem_cons.mp h
    obtain ⟨m, hm⟩ := ha
    obtain ⟨n, hn⟩ := ih hl
    refine ⟨max m n, List.forall_mem_cons.mpr ⟨hmono a m _ (Nat.le_max_left m n) hm, ?_⟩⟩
    intro b hb
    exact hmono b n _ (Nat.le_max_right m n) (hn b hb)

end loops

/-! ### The walk -/

theorem validName_memberName (pre key : String) :
    validName (memberName pre key) = (validName pre && validName key) := by
  have hdot : validName "." = true := by decide
  unfold memberName
  by_cases hpre : pre = ""
  · rw [if_pos hpre, hpre]
    rfl
  · rw [if_neg hpre, validName_append, validName_append, hdot, Bool.and_true]

namespace Document

variable {D : Document} {pre : String} {node : Fin D.size}

theorem ListAllMember_invalid (hpre : ¬ validName pre = true) (fuel : Nat) (node : Fin D.size) :
    D.ListAllMember (fuel + 1) pre node = some [] := by
  rw [ListAllMember, if_pos (by simpa using hpre)]

theorem ListAllMember_map {pairs} (hcell : D.cell node = .map pairs) (hpre : validName pre = true)
    (fuel : Nat) :
    D.ListAllMember (fuel + 1) pre node
      = (appendAll (fun it => D.ListAllMember fuel (memberName pre (D.Scalar it.1)) it.2) pairs).map
          ((pre, node) :: ·) := by
  rw [ListAllMember, if_neg (by simp [hpre]), hcell]

theorem ListAllMember_leaf (hcell : ∀ pairs, D.cell node ≠ .map pairs)
    (hpre : validName pre = true)
    (fuel : Nat) : D.ListAllMember (fuel + 1) pre node = some [(pre, node)] := by
  rw [ListAllMember, if_neg (by simp [hpre])]
  cases hnode : D.cell node with
  | map pairs => exact absurd hnode (hcell pairs)
  | _ => rfl

/-- A call that returns within a depth returns the same within a greater one. -/
theorem ListAllMember_mono {fuel fuel' : Nat} (hle : fuel ≤ fuel')
    (h : (D.ListAllMember fuel pre node).isSome) :
    D.ListAllMember fuel' pre node = D.ListAllMember fuel pre node := by
  induction fuel generalizing fuel' pre node with
  | zero => simp [ListAllMember] at h
  | succ fuel ih =>
    obtain ⟨fuel', rfl⟩ := Nat.exists_eq_add_of_lt (Nat.lt_of_succ_le hle)
    rw [show fuel + fuel' + 1 = (fuel + fuel') + 1 from rfl]
    by_cases hpre : validName pre = true
    · cases hcell : D.cell node with
      | map pairs =>
        rw [ListAllMember_map hcell hpre, Option.isSome_map, appendAll_isSome] at h
        rw [ListAllMember_map hcell hpre, ListAllMember_map hcell hpre]
        congr 1
        -- the calls for the members have one level less, in either run
        apply appendAll_congr
        intro it hit
        exact ih (Nat.le_add_right fuel fuel') (h it hit)
      | _ =>
        rw [ListAllMember_leaf (by simp [hcell]) hpre, ListAllMember_leaf (by simp [hcell]) hpre]
    · rw [ListAllMember_invalid hpre, ListAllMember_invalid hpre]

/-! ### Documents that unfold to a tree -/

theorem loop_tree {pairs : List (Fin D.size × Fin D.size)} {pairs' : List (String × Node)}
    (hkeys : pairs.map (fun it => D.Scalar it.1) = pairs'.map Prod.fst)
    (h : ∀ p ∈ pairs.zip pairs', ∀ pre, ∃ fuel l,
      D.ListAllMember fuel pre p.1.2 = some l ∧
        List.Forall₂ D.SameEntry l (Config.ListAllMember pre p.2.2))
    (pre : String) : ∃ fuel, List.Forall₂ (fun it it' => ∃ l,
      D.ListAllMember fuel (memberName pre (D.Scalar it.1)) it.2 = some l
        ∧ List.Forall₂ D.SameEntry l (Config.ListAllMember (memberName pre it'.1) it'.2))
          pairs pairs' := by
  induction pairs generalizing pairs' with
  | nil =>
    have hnil : pairs' = [] := by simpa using hkeys.symm
    exact ⟨0, hnil ▸ .nil⟩
  | cons it pairs ih =>
    cases pairs' with
    | nil => simp at hkeys
    | cons it' pairs' =>
      rw [List.map_cons, List.map_cons, List.cons.injEq] at hkeys
      rw [List.zip_cons_cons, List.forall_mem_cons] at h
      obtain ⟨m, l, hl, hR⟩ := h.1 (memberName pre it'.1)
      obtain ⟨n, hrest⟩ := ih hkeys.2 h.2
      -- the greater of the depths will do for both
      refine ⟨max m n, .cons ⟨l, ?_, hR⟩ (hrest.imp ?_)⟩
      · rw [hkeys.1, ListAllMember_mono (Nat.le_max_left m n) (by rw [hl]; rfl), hl]
      · rintro it it' ⟨l, hl, hR⟩
        exact ⟨l, by rw [ListAllMember_mono (Nat.le_max_right m n) (by rw [hl]; rfl), hl], hR⟩

theorem invalid_tree {n : Node} (hpre : ¬ validName pre = true) : ∃ fuel l,
    D.ListAllMember fuel pre node = some l
      ∧ List.Forall₂ D.SameEntry l (Config.ListAllMember pre n) := by
  refine ⟨1, [], ListAllMember_invalid hpre 0 node, ?_⟩
  rw [Config.ListAllMember_invalid hpre]
  exact .nil

theorem leaf_tree {n : Node} (hcell : ∀ pairs, D.cell node ≠ .map pairs)
    (hn : ∀ pairs, n ≠ .map pairs) (h : D.Tree node n)
    (hpre : validName pre = true) : ∃ fuel l,
    D.ListAllMember fuel pre node = some l
      ∧ List.Forall₂ D.SameEntry l (Config.ListAllMember pre n) := by
  refine ⟨1, [(pre, node)], ListAllMember_leaf hcell hpre 0, ?_⟩
  rw [Config.ListAllMember_leaf hn, if_neg (by simp [hpre])]
  exact .cons ⟨rfl, h⟩ .nil

/-- On a tree this is the walk over the tree. -/
theorem ListAllMember_tree {n : Node} (h : D.Tree node n) (pre : String) : ∃ fuel l,
    D.ListAllMember fuel pre node = some l
      ∧ List.Forall₂ D.SameEntry l (Config.ListAllMember pre n) := by
  by_cases hpre : validName pre = true
  · -- on the tree; there are further calls only below a map
    induction h generalizing pre with
    | null hcell => exact leaf_tree (by simp [hcell]) (by simp) (.null hcell) hpre
    | scalar hcell => exact leaf_tree (by simp [hcell]) (by simp) (.scalar hcell) hpre
    | sequence hcell hlen htrees _ =>
      exact leaf_tree (by simp [hcell]) (by simp) (.sequence hcell hlen htrees) hpre
    | @map node pairs pairs' hcell hkeys htrees ih =>
      have hcalls :
          ∀ p ∈ pairs.zip pairs', ∀ pre, ∃ fuel l, D.ListAllMember fuel pre p.1.2 = some l
          ∧ List.Forall₂ D.SameEntry l (Config.ListAllMember pre p.2.2) := by
        intro p hp pre
        by_cases hpre : validName pre = true
        · exact ih p hp pre hpre
        · exact invalid_tree hpre
      obtain ⟨fuel, hloop⟩ := loop_tree hkeys hcalls pre
      obtain ⟨l, hl, hR⟩ := appendAll_rel hloop
      refine ⟨fuel + 1, (pre, node) :: l, ?_, ?_⟩
      · rw [ListAllMember_map hcell hpre, hl]
        rfl
      · rw [Config.ListAllMember_map hpre]
        exact .cons ⟨rfl, .map hcell hkeys htrees⟩ hR
  · exact invalid_tree hpre

section load
variable {K : Type} {types : K → VarType} {emit : Fin D.size → String} {Y : Yaml}

theorem text_tree (hemit : ∀ node n, D.Tree node n → emit node = Y.emit n) {n : Node}
    (h : D.Tree node n) : D.text emit node = Config.text Y n := by
  unfold text Config.text
  cases h with
  | null hcell => rw [hcell]; exact hemit node _ (.null hcell)
  | scalar hcell => rw [hcell]
  | sequence hcell hlen htrees => rw [hcell]; exact hemit node _ (.sequence hcell hlen htrees)
  | map hcell hkeys htrees => rw [hcell]; exact hemit node _ (.map hcell hkeys htrees)

/-- A document that is a tree is loaded like the tree. -/
theorem LoadFromYaml_tree (hemit : ∀ node n, D.Tree node n → emit node = Y.emit n) {root : Node}
    (hroot : D.Tree D.root root) (datas : Registry types) :
    ∃ fuel, D.LoadFromYaml emit fuel datas = some (Config.LoadFromYaml Y root datas) := by
  obtain ⟨fuel, l, hl, hR⟩ := ListAllMember_tree hroot ""
  refine ⟨fuel, ?_⟩
  rw [LoadFromYaml, hl, Option.map_some, Config.LoadFromYaml]
  congr 1
  generalize Config.ListAllMember "" root = l' at hR
  clear hl
  induction hR generalizing datas with
  | nil => rfl
  | @cons i j l l' hij _ ih =>
    have hstep : D.loadNode emit datas i = Config.loadNode Y datas j := by
      rw [loadNode, Config.loadNode, hij.1, text_tree hemit hij.2]
      cases hvar : LookupBase datas (tolower j.1) with
      | none => simp [hvar]
      | some var => simp [hvar]
    rw [List.foldl_cons, List.foldl_cons, hstep, ih]

end load

/-! ### Loading returns exactly without recursion -/

/-- From `n` one gets to a map that contains itself. -/
def Circles (D : Document) (n : Fin D.size) : Prop :=
  ∃ m, Relation.ReflTransGen D.Member n m ∧ Relation.TransGen D.Member m m

/-- Such a map has a member of the same kind. -/
theorem Circles.member (h : D.Circles node) : ∃ m, D.Member node m ∧ D.Circles m := by
  obtain ⟨m, hreach, hcycle⟩ := h
  rcases Relation.ReflTransGen.cases_head hreach with rfl | ⟨c, hc, hrest⟩
  · obtain ⟨c, hc, hback⟩ := Relation.TransGen.head'_iff.mp hcycle
    exact ⟨c, hc, node, hback, hcycle⟩
  · exact ⟨c, hc, m, hrest, hcycle⟩

/-- No depth is enough for it. -/
theorem Circles.none (h : D.Circles node) (hpre : validName pre = true) (fuel : Nat) :
    D.ListAllMember fuel pre node = none := by
  induction fuel generalizing node pre with
  | zero => rfl
  | succ fuel ih =>
    obtain ⟨m, ⟨pairs, hcell, p, hp, rfl, hkey⟩, hm⟩ := h.member
    have hname : validName (memberName pre (D.Scalar p.1)) = true := by
      rw [validName_memberName, hpre, hkey]
      rfl
    rw [ListAllMember_map hcell hpre, Option.map_eq_none_iff, ← Option.not_isSome_iff_eq_none,
      appendAll_isSome]
    intro hall
    -- but the call for this member does not return
    have hsome := hall p hp
    rw [ih hm hname] at hsome
    cases hsome

/-- Without recursion every node that is reached has a depth that is enough. -/
theorem exists_fuel (h : ¬ D.Recurs) (hreach : Relation.ReflTransGen D.Member D.root node) :
    ∃ fuel, ∀ pre, (D.ListAllMember fuel pre node).isSome := by
  -- the members of what is reached, and their members
  let inner : Fin D.size → Fin D.size → Prop := fun m n =>
    Relation.ReflTransGen D.Member D.root n ∧ Relation.TransGen D.Member n m
  have htrans : IsTrans (Fin D.size) inner :=
    ⟨fun a b c hab hbc => ⟨hbc.1, hbc.2.trans hab.2⟩⟩
  have hirrefl : Std.Irrefl inner := ⟨fun a ha => h ⟨a, ha.1, ha.2⟩⟩
  induction node using (Finite.wellFounded_of_trans_of_irrefl inner).induction with
  | _ node ih =>
  cases hcell : D.cell node with
  | map pairs =>
    have hpairs : ∀ p ∈ pairs, ∃ fuel, ∀ pre,
        (D.ListAllMember fuel (memberName pre (D.Scalar p.1)) p.2).isSome := by
      intro p hp
      by_cases hkey : validName (D.Scalar p.1) = true
      · have hmember : D.Member node p.2 := ⟨pairs, hcell, p, hp, rfl, hkey⟩
        obtain ⟨fuel, hfuel⟩ := ih p.2 ⟨hreach, .single hmember⟩ (hreach.tail hmember)
        exact ⟨fuel, fun pre => hfuel _⟩
      · -- the call for this key returns at once
        refine ⟨1, fun pre => ?_⟩
        rw [ListAllMember_invalid (by simp [validName_memberName, hkey])]
        rfl
    obtain ⟨fuel, hfuel⟩ := exists_bound
      (fun p m n hle hm pre => by rw [ListAllMember_mono hle (hm pre)]; exact hm pre) hpairs
    refine ⟨fuel + 1, fun pre => ?_⟩
    by_cases hpre : validName pre = true
    · rw [ListAllMember_map hcell hpre, Option.isSome_map, appendAll_isSome]
      exact fun p hp => hfuel p hp pre
    · rw [ListAllMember_invalid hpre]
      rfl
  | _ =>
    refine ⟨1, fun pre => ?_⟩
    by_cases hpre : validName pre = true
    · rw [ListAllMember_leaf (by simp [hcell]) hpre]
      rfl
    · rw [ListAllMember_invalid hpre]
      rfl

section load
variable {K : Type} {types : K → VarType} {emit : Fin D.size → String} {datas : Registry types}

theorem not_returns_of_recurs (h : D.Recurs) : ¬ D.Returns emit datas := by
  rintro ⟨⟨fuel, hfuel⟩, -⟩
  obtain ⟨n, hreach, hcycle⟩ := h
  have hroot : D.Circles D.root := ⟨n, hreach, hcycle⟩
  rw [hroot.none rfl] at hfuel
  cases hfuel

/-- Loading a document returns exactly if no map that is reached through keys of name
    characters contains itself through such keys. -/
theorem returns_iff : D.Returns emit datas ↔ ¬ D.Recurs := by
  constructor
  · intro hreturns hrecurs
    exact not_returns_of_recurs hrecurs hreturns
  · intro h
    obtain ⟨fuel, hfuel⟩ := exists_fuel h .refl
    refine ⟨⟨fuel, hfuel ""⟩, fuel, ?_⟩
    rw [LoadFromYaml, Option.isSome_map]
    exact hfuel ""

end load

end Document

/-! ### A map in itself -/

/-- The document `a: &x {b: *x}`. -/
def selfContained : Document where
  size := 4
  cell
    | 0 => .map [(1, 2)]
    | 1 => .scalar "a"
    | 2 => .map [(3, 2)]
    | 3 => .scalar "b"
  root := 0

theorem selfContained_recurs : selfContained.Recurs := by
  let inner : Fin selfContained.size := (2 : Fin 4)
  have houter : selfContained.Member selfContained.root inner :=
    ⟨_, rfl, _, List.mem_cons_self, rfl, by decide⟩
  have hinner : selfContained.Member inner inner :=
    ⟨_, rfl, _, List.mem_cons_self, rfl, by decide⟩
  exact ⟨inner, .single houter, .single hinner⟩

/-- The call for the inner map calls itself for the inner map. -/
theorem not_selfContained_returns :
    ¬ ∀ (K : Type) (types : K → VarType) (datas : Registry types)
    (D : Document) (emit : Fin D.size → String), D.Returns emit datas := by
  intro h
  exact Document.not_returns_of_recurs selfContained_recurs
    (h Unit _ (oneVar "a.b") selfContained fun _ => "")

end Gwn.Config
