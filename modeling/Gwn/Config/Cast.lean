import Gwn.Config.Yaml
import Gwn.Framework.Ordered
import Mathlib

/-! # The text form of containers

    The partial specialisations of `LexicalCast` for the standard containers
    (gwn/config.h). A C++ type comes as a bundle of its values, its `operator==` and
    its two casts; a container is a function on bundles, as its template is on types.
    yaml-cpp and `boost::lexical_cast` are parameters.

    An `unordered_` container is the list of what an iteration finds; the standard
    leaves the order open, and `operator==` does not look at it. -/

namespace Gwn.Config

open LTS

/-! ### Types -/

/-- A C++ type with `operator==` and `LexicalCast` in both directions, which may throw. -/
structure CastType where
  T : Type
  eq : T → T → Bool
  /-- `LexicalCast<T, std::string>`. -/
  toText : T → Option String
  /-- `LexicalCast<std::string, T>`. -/
  ofText : String → Option T
  /-- The node tree that the text of a value stands for. -/
  tree : T → Node

/-- A type that has `operator<` as well. -/
structure OrderedType extends CastType where
  ord : LinearOrder T
  eq_iff : ∀ a b, eq a b = true ↔ a = b

attribute [instance] OrderedType.ord

/-- `boost::lexical_cast` between `int` and `std::string`. -/
structure LexicalInt where
  write : Int32 → String
  read : String → Option Int32

/-- `operator==` of containers that are compared element by element. -/
def pairwiseEq {α : Type} (eq : α → α → Bool) : List α → List α → Bool
  | [], [] => true
  | a :: l, b :: l' => eq a b && pairwiseEq eq l l'
  | _, _ => false

section casts
variable (Y : Yaml) (I : LexicalInt)

/-- `int`. -/
def int : OrderedType where
  T := Int32
  eq a b := a = b
  toText z := some (I.write z)
  ofText := I.read
  tree z := .scalar (I.write z)
  ord := LinearOrder.lift' Int32.toInt fun _ _ h => Int32.toInt_inj.mp h
  eq_iff _ _ := by simp

/-! ### Sequences -/

/-- The loop over the elements when writing: the node that is pushed back for one. -/
def CastType.push (E : CastType) (i : E.T) : Option Node :=
  (E.toText i).bind Y.load

/-- The loop over the items when reading. -/
def CastType.pull (E : CastType) (n : Node) : Option E.T :=
  E.ofText (Y.emit n)

def elementsToText (E : CastType) (v : List E.T) : Option String :=
  (v.mapM (E.push Y)).map fun items => Y.emit (.sequence items)

def elementsOfText (E : CastType) (v : String) : Option (List E.T) :=
  (Y.load v).bind fun node => node.items.bind fun items => items.mapM (E.pull Y)

/-- `std::vector<T>` and `std::list<T>`, whose casts are the same. -/
def sequence (E : CastType) : CastType where
  T := List E.T
  eq := pairwiseEq E.eq
  toText := elementsToText Y E
  ofText := elementsOfText Y E
  tree v := .sequence (v.map E.tree)

/-- `std::vector<T>`. -/
def vector (E : CastType) : CastType := sequence Y E

/-- `std::list<T>`. -/
def list (E : CastType) : CastType := sequence Y E

/-! ### Sets -/

/-- `std::set<T>`. -/
def set (E : OrderedType) : CastType where
  T := Ordered (id : E.T → E.T)
  eq a b := pairwiseEq E.eq a.entries b.entries
  toText v := elementsToText Y E.toCastType v.entries
  ofText v := (elementsOfText Y E.toCastType v).map fun l => l.foldl Ordered.insert Ordered.empty
  tree v := .sequence (v.entries.map E.tree)

/-- `us.insert(a)` of a `std::unordered_set`. -/
def insertNew {α : Type} [DecidableEq α] (us : { l : List α // l.Nodup }) (a : α) :
    { l : List α // l.Nodup } :=
  if h : a ∈ us.1 then us
  else ⟨us.1 ++ [a], List.nodup_append.mpr
    ⟨us.2, List.nodup_singleton a, fun b hb c hc => by
      rw [List.mem_singleton.mp hc]
      rintro rfl
      exact h hb⟩⟩

/-- `operator==` of `unordered_` sets. -/
def sameElements {α : Type} [DecidableEq α] (l l' : List α) : Bool :=
  l.length = l'.length && l.all fun a => a ∈ l'

/-- `std::unordered_set<T>`. -/
def unordered_set (E : OrderedType) : CastType where
  T := { l : List E.T // l.Nodup }
  eq a b := sameElements a.1 b.1
  toText v := elementsToText Y E.toCastType v.1
  ofText v := (elementsOfText Y E.toCastType v).map fun l =>
    l.foldl insertNew ⟨[], List.nodup_nil⟩
  tree v := .sequence (v.1.map E.tree)

/-! ### Maps -/

/-- The node of one pair when writing; the keys are distinct, so that setting it adds a pair. -/
def CastType.pushPair (E : CastType) (i : String × E.T) : Option (String × Node) :=
  (E.push Y i.2).map (i.1, ·)

def CastType.pullPair (E : CastType) (p : String × Node) : Option (String × E.T) :=
  (E.pull Y p.2).map (p.1, ·)

def pairsToText (E : CastType) (v : List (String × E.T)) : Option String :=
  (v.mapM (E.pushPair Y)).map fun pairs => Y.emit (.map pairs)

def pairsOfText (E : CastType) (v : String) : Option (List (String × E.T)) :=
  (Y.load v).bind fun node => node.pairs.bind fun pairs => pairs.mapM (E.pullPair Y)

/-- `operator==` of pairs. -/
def CastType.eqPair (E : CastType) (p q : String × E.T) : Bool :=
  p.1 = q.1 && E.eq p.2 q.2

/-- `std::map<std::string, T>`. -/
def map (E : CastType) : CastType where
  T := Ordered (Prod.fst : String × E.T → String)
  eq a b := pairwiseEq E.eqPair a.entries b.entries
  toText v := pairsToText Y E v.entries
  ofText v := (pairsOfText Y E v).map fun l => l.foldl Ordered.insert Ordered.empty
  tree v := .map (v.entries.map fun p => (p.1, E.tree p.2))

/-- `m.insert(p)` of a `std::unordered_map`. -/
def insertKey {α : Type} (m : { l : List (String × α) // (l.map Prod.fst).Nodup })
    (p : String × α) : { l : List (String × α) // (l.map Prod.fst).Nodup } :=
  if h : p.1 ∈ m.1.map Prod.fst then m
  else ⟨m.1 ++ [p], by
    rw [List.map_append]
    refine List.nodup_append.mpr ⟨m.2, List.nodup_singleton _, fun b hb c hc => ?_⟩
    rw [List.mem_singleton.mp hc]
    rintro rfl
    exact h hb⟩

/-- `operator==` of `unordered_` maps. -/
def samePairs (E : CastType) (l l' : List (String × E.T)) : Bool :=
  l.length = l'.length && l.all fun p => l'.any fun q => E.eqPair p q

/-- `std::unordered_map<std::string, T>`. -/
def unordered_map (E : CastType) : CastType where
  T := { l : List (String × E.T) // (l.map Prod.fst).Nodup }
  eq a b := samePairs E a.1 b.1
  toText v := pairsToText Y E v.1
  ofText v := (pairsOfText Y E v).map fun l => l.foldl insertKey ⟨[], List.nodup_nil⟩
  tree v := .map (v.1.map fun p => (p.1, E.tree p.2))

/-! ### Nesting -/

theorem pairwiseEq_iff {α : Type} {eq : α → α → Bool} (h : ∀ a b, eq a b = true ↔ a = b)
    (l l' : List α) :
    pairwiseEq eq l l' = true ↔ l = l' := by
  induction l generalizing l' with
  | nil => cases l' <;> simp [pairwiseEq]
  | cons a l ih =>
    cases l' with
    | nil => simp [pairwiseEq]
    | cons b l' => simp [pairwiseEq, h, ih]

/-- Lexicographic order. -/
abbrev byElements (α : Type) [LinearOrder α] : LinearOrder (List α) := inferInstance

/-- `operator<` of `std::vector<T>` and `std::list<T>` is lexicographic. -/
def OrderedType.sequence (E : OrderedType) : OrderedType where
  toCastType := Config.sequence Y E.toCastType
  ord := byElements E.T
  eq_iff := pairwiseEq_iff E.eq_iff

/-- So is that of `std::set<T>`. -/
def OrderedType.set (E : OrderedType) : OrderedType where
  toCastType := Config.set Y E
  ord := LinearOrder.lift' Ordered.entries fun _ _ => Ordered.ext
  eq_iff a b := (pairwiseEq_iff E.eq_iff a.entries b.entries).trans
    ⟨Ordered.ext, fun h => h ▸ rfl⟩

theorem OrderedType.eqPair_iff (E : OrderedType) (p q : String × E.T) :
    E.eqPair p q = true ↔ p = q := by
  obtain ⟨k, x⟩ := p
  obtain ⟨k', x'⟩ := q
  simp [CastType.eqPair, E.eq_iff]

/-- And that of `std::map<std::string, T>`, over the pairs. -/
def OrderedType.map (E : OrderedType) : OrderedType where
  toCastType := Config.map Y E.toCastType
  ord := LinearOrder.lift' (fun a => a.entries.map toLex) fun _ _ h =>
    Ordered.ext (List.map_injective_iff.mpr toLex.injective h)
  eq_iff a b := (pairwiseEq_iff E.eqPair_iff a.entries b.entries).trans
    ⟨Ordered.ext, fun h => h ▸ rfl⟩

/-- The types with `operator<` that are built from `int`. -/
inductive OrderedTy where
  | int
  | vector (t : OrderedTy)
  | list (t : OrderedTy)
  | set (t : OrderedTy)
  | map (t : OrderedTy)

/-- The types that are built from `int`. `std::hash` is there for `int`; the
    elements of an `std::unordered_set` may be of any type with `operator<` here. -/
inductive Ty where
  | ordered (t : OrderedTy)
  | vector (t : Ty)
  | list (t : Ty)
  | unordered_set (t : OrderedTy)
  | map (t : Ty)
  | unordered_map (t : Ty)

def OrderedTy.type : OrderedTy → OrderedType
  | int => Config.int I
  | vector t => (type t).sequence Y
  | list t => (type t).sequence Y
  | set t => (type t).set Y
  | map t => (type t).map Y

def Ty.type : Ty → CastType
  | ordered t => (t.type Y I).toCastType
  | vector t => Config.vector Y (type t)
  | list t => Config.list Y (type t)
  | unordered_set t => Config.unordered_set Y (t.type Y I)
  | map t => Config.map Y (type t)
  | unordered_map t => Config.unordered_map Y (type t)

end casts

/-! ### The round trip -/

section roundTrip
variable {Y : Yaml} {I : LexicalInt}

/-- `Load` undoes the emitter on the nodes of a tree. -/
def Written (Y : Yaml) (n : Node) : Prop :=
  ∀ m, m.Within n → Y.load (Y.emit m) = some m

theorem Written.item {items : List Node} {n : Node} (h : Written Y (.sequence items))
    (hn : n ∈ items) :
    Written Y n :=
  fun m hm => h m (.item hn hm)

theorem Written.value {pairs : List (String × Node)} {p : String × Node}
    (h : Written Y (.map pairs)) (hp : p ∈ pairs) : Written Y p.2 :=
  fun m hm => h m (.value hp hm)

theorem Written.load {n : Node} (h : Written Y n) : Y.load (Y.emit n) = some n :=
  h n .root

/-- The text of a value is that of its tree, and is read as an equal value. -/
structure CastType.Sound (Y : Yaml) (E : CastType) : Prop where
  toText : ∀ v, Written Y (E.tree v) → E.toText v = some (Y.emit (E.tree v))
  ofText : ∀ v, Written Y (E.tree v) → ∃ v', E.ofText (Y.emit (E.tree v)) = some v' ∧
    E.eq v' v = true

theorem int_sound (hemit : ∀ z, Y.emit (.scalar (I.write z)) = I.write z)
    (hlex : ∀ z, I.read (I.write z) = some z) : (int I).Sound Y where
  toText z _ := congrArg some (hemit z).symm
  ofText z _ := by
    have hread : I.read (Y.emit (.scalar (I.write z))) = some z :=
      (congrArg I.read (hemit z)).trans (hlex z)
    exact ⟨z, hread, ((int I).eq_iff z z).mpr rfl⟩

theorem mapM_of_forall {α β : Type} {f : α → Option β} {g : α → β} {l : List α}
    (h : ∀ a ∈ l, f a = some (g a)) : l.mapM f = some (l.map g) := by
  induction l with
  | nil => rfl
  | cons a l ih =>
    obtain ⟨ha, hl⟩ := List.forall_mem_cons.mp h
    rw [List.mapM_cons, ha, ih hl]
    rfl

theorem mapM_of_exists {α β γ : Type} {f : β → Option γ} {g : α → β}
    {eq : γ → α → Bool} {l : List α}
    (h : ∀ a ∈ l, ∃ c, f (g a) = some c ∧ eq c a = true) :
    ∃ l', (l.map g).mapM f = some l' ∧ List.Forall₂ (fun c a => eq c a = true) l' l := by
  induction l with
  | nil => exact ⟨[], rfl, .nil⟩
  | cons a l ih =>
    obtain ⟨⟨c, hc, heq⟩, hl⟩ := List.forall_mem_cons.mp h
    obtain ⟨l', hl', heqs⟩ := ih hl
    refine ⟨c :: l', ?_, .cons heq heqs⟩
    rw [List.map_cons, List.mapM_cons, hc, hl']
    rfl

theorem pairwiseEq_of_forall₂ {α : Type} {eq : α → α → Bool} {l l' : List α}
    (h : List.Forall₂ (fun a b => eq a b = true) l l') : pairwiseEq eq l l' = true := by
  induction h with
  | nil => rfl
  | cons hab _ ih => simp [pairwiseEq, hab, ih]

/-! Sequences and sets go through the same text. -/

variable {E : CastType}

theorem push_eq (hE : E.Sound Y) {a : E.T} (h : Written Y (E.tree a)) :
    E.push Y a = some (E.tree a) := by
  unfold CastType.push
  rw [hE.toText a h, Option.bind_some, h.load]

theorem elementsToText_eq (hE : E.Sound Y) {v : List E.T}
    (h : Written Y (.sequence (v.map E.tree))) :
    elementsToText Y E v = some (Y.emit (.sequence (v.map E.tree))) := by
  unfold elementsToText
  rw [mapM_of_forall fun a ha => push_eq hE (h.item (List.mem_map_of_mem ha))]
  rfl

theorem elementsOfText_eq (hE : E.Sound Y) {v : List E.T}
    (h : Written Y (.sequence (v.map E.tree))) :
    ∃ v', elementsOfText Y E (Y.emit (.sequence (v.map E.tree))) = some v'
      ∧ List.Forall₂ (fun a b => E.eq a b = true) v' v := by
  unfold elementsOfText
  rw [h.load]
  exact mapM_of_exists fun a ha => hE.ofText a (h.item (List.mem_map_of_mem ha))

theorem sequence_sound (hE : E.Sound Y) : (sequence Y E).Sound Y where
  toText _ h := elementsToText_eq hE h
  ofText v h := by
    obtain ⟨v', hread, heq⟩ := elementsOfText_eq hE h
    exact ⟨v', hread, pairwiseEq_of_forall₂ heq⟩

/-- The elements of an ordered type come back as they were. -/
theorem elementsOfText_ordered {E : OrderedType} (hE : E.Sound Y) {v : List E.T}
    (h : Written Y (.sequence (v.map E.tree))) :
    elementsOfText Y E.toCastType (Y.emit (.sequence (v.map E.tree))) = some v := by
  obtain ⟨v', hread, heq⟩ := elementsOfText_eq hE h
  obtain rfl := (pairwiseEq_iff E.eq_iff v' v).mp (pairwiseEq_of_forall₂ heq)
  exact hread

theorem foldl_insert_empty {α β : Type} [LinearOrder β] {key : α → β} {l : List α}
    (h : l.Pairwise fun a b => key a < key b) :
    (l.foldl Ordered.insert (Ordered.empty : Ordered key)).entries = l :=
  Ordered.foldl_insert h

theorem set_sound {E : OrderedType} (hE : E.Sound Y) : (set Y E).Sound Y where
  toText _ h := elementsToText_eq hE h
  ofText v h := by
    have hread := elementsOfText_ordered hE h
    obtain ⟨s, hs, hentries⟩ : ∃ s : Ordered (id : E.T → E.T),
        v.entries.foldl Ordered.insert Ordered.empty = s ∧ s.entries = v.entries :=
      ⟨_, rfl, foldl_insert_empty v.sorted⟩
    refine ⟨s, ?_, (pairwiseEq_iff E.eq_iff s.entries v.entries).mpr hentries⟩
    exact (congrArg (Option.map _) hread).trans (congrArg some hs)

theorem foldl_insertNew {α : Type} [DecidableEq α] {l : List α} {us : { l : List α // l.Nodup }}
    (h : (us.1 ++ l).Nodup) : (l.foldl insertNew us).1 = us.1 ++ l := by
  induction l generalizing us with
  | nil => simp
  | cons a l ih =>
    have hnew : (insertNew us a).1 = us.1 ++ [a] := by
      have ha : a ∉ us.1 := fun ha => (List.nodup_append.mp h).2.2 a ha a List.mem_cons_self rfl
      simp [insertNew, ha]
    rw [List.foldl_cons, ih, hnew, List.append_assoc]
    · rfl
    · rw [hnew, List.append_assoc]
      exact h

theorem sameElements_of_eq {α : Type} [DecidableEq α] {l l' : List α} (h : l = l') :
    sameElements l l' = true := by
  simp [sameElements, h]

theorem unordered_set_sound {E : OrderedType} (hE : E.Sound Y) : (unordered_set Y E).Sound Y where
  toText _ h := elementsToText_eq hE h
  ofText v h := by
    have hread := elementsOfText_ordered hE h
    obtain ⟨us, hus, helements⟩ : ∃ us : { l : List E.T // l.Nodup },
        v.1.foldl insertNew ⟨[], List.nodup_nil⟩ = us ∧ us.1 = v.1 :=
      ⟨_, rfl, foldl_insertNew v.2⟩
    refine ⟨us, (congrArg (Option.map _) hread).trans (congrArg some hus), ?_⟩
    exact sameElements_of_eq helements

/-! So do the maps. -/

theorem pushPair_eq (hE : E.Sound Y) {p : String × E.T} (h : Written Y (E.tree p.2)) :
    E.pushPair Y p = some (p.1, E.tree p.2) := by
  unfold CastType.pushPair
  rw [push_eq hE h]
  rfl

theorem pairsToText_eq (hE : E.Sound Y) {v : List (String × E.T)}
    (h : Written Y (.map (v.map fun p => (p.1, E.tree p.2)))) :
    pairsToText Y E v = some (Y.emit (.map (v.map fun p => (p.1, E.tree p.2)))) := by
  unfold pairsToText
  rw [mapM_of_forall fun p hp => pushPair_eq hE
    (h.value (List.mem_map_of_mem (f := fun p : String × E.T => (p.1, E.tree p.2)) hp))]
  rfl

theorem pairsOfText_eq (hE : E.Sound Y) {v : List (String × E.T)}
    (h : Written Y (.map (v.map fun p => (p.1, E.tree p.2)))) :
    ∃ v', pairsOfText Y E (Y.emit (.map (v.map fun p => (p.1, E.tree p.2)))) = some v'
      ∧ List.Forall₂ (fun p q => E.eqPair p q = true) v' v := by
  unfold pairsOfText
  rw [h.load]
  apply mapM_of_exists
  intro p hp
  obtain ⟨x, hx, heq⟩ := hE.ofText p.2
    (h.value (List.mem_map_of_mem (f := fun p : String × E.T => (p.1, E.tree p.2)) hp))
  refine ⟨(p.1, x), ?_, by simp [CastType.eqPair, heq]⟩
  unfold CastType.pullPair CastType.pull
  rw [hx]
  rfl

theorem keys_eq {l l' : List (String × E.T)}
    (h : List.Forall₂ (fun p q => E.eqPair p q = true) l l') :
    l.map Prod.fst = l'.map Prod.fst := by
  induction h with
  | nil => rfl
  | cons hpq _ ih =>
    simp only [CastType.eqPair, Bool.and_eq_true, decide_eq_true_eq] at hpq
    rw [List.map_cons, List.map_cons, hpq.1, ih]

theorem map_sound (hE : E.Sound Y) : (map Y E).Sound Y where
  toText _ h := pairsToText_eq hE h
  ofText v h := by
    obtain ⟨v', hread, heq⟩ := pairsOfText_eq hE h
    -- the keys are in the order of `v`
    have hsorted : v'.Pairwise fun p q => p.1 < q.1 := by
      rw [← List.pairwise_map (f := Prod.fst), keys_eq heq, List.pairwise_map]
      exact v.sorted
    obtain ⟨m, hm, hentries⟩ : ∃ m : Ordered (Prod.fst : String × E.T → String),
        v'.foldl Ordered.insert Ordered.empty = m ∧ m.entries = v' :=
      ⟨_, rfl, foldl_insert_empty hsorted⟩
    subst hentries
    refine ⟨m, (congrArg (Option.map _) hread).trans (congrArg some hm), ?_⟩
    exact pairwiseEq_of_forall₂ heq

theorem foldl_insertKey {α : Type} {l : List (String × α)}
    {m : { l : List (String × α) // (l.map Prod.fst).Nodup }}
    (h : ((m.1 ++ l).map Prod.fst).Nodup) :
    (l.foldl insertKey m).1 = m.1 ++ l := by
  induction l generalizing m with
  | nil => simp
  | cons p l ih =>
    have hnew : (insertKey m p).1 = m.1 ++ [p] := by
      have hp : p.1 ∉ m.1.map Prod.fst := by
        intro hp
        rw [List.map_append] at h
        exact (List.nodup_append.mp h).2.2 p.1 hp p.1 List.mem_cons_self rfl
      unfold insertKey
      rw [dif_neg hp]
    rw [List.foldl_cons, ih, hnew, List.append_assoc]
    · rfl
    · rw [hnew, List.append_assoc]
      exact h

theorem exists_of_forall₂ {l l' : List (String × E.T)}
    (h : List.Forall₂ (fun p q => E.eqPair p q = true) l l') {p : String × E.T} (hp : p ∈ l) :
    ∃ q ∈ l', E.eqPair p q = true := by
  induction h with
  | nil => cases hp
  | cons hpq _ ih =>
    rcases List.mem_cons.mp hp with rfl | hp
    · exact ⟨_, List.mem_cons_self, hpq⟩
    · obtain ⟨q, hq, heq⟩ := ih hp
      exact ⟨q, List.mem_cons_of_mem _ hq, heq⟩

theorem samePairs_of_forall₂ {l l' : List (String × E.T)}
    (h : List.Forall₂ (fun p q => E.eqPair p q = true) l l') : samePairs E l l' = true := by
  unfold samePairs
  simp only [h.length_eq, decide_true, Bool.true_and, List.all_eq_true, List.any_eq_true]
  intro p hp
  exact exists_of_forall₂ h hp

theorem unordered_map_sound (hE : E.Sound Y) : (unordered_map Y E).Sound Y where
  toText _ h := pairsToText_eq hE h
  ofText v h := by
    obtain ⟨v', hread, heq⟩ := pairsOfText_eq hE h
    have hnodup : (v'.map Prod.fst).Nodup := keys_eq heq ▸ v.2
    obtain ⟨m, hm, hpairs⟩ : ∃ m : { l : List (String × E.T) // (l.map Prod.fst).Nodup },
        v'.foldl insertKey ⟨[], List.nodup_nil⟩ = m ∧ m.1 = v' :=
      ⟨_, rfl, foldl_insertKey hnodup⟩
    subst hpairs
    refine ⟨m, (congrArg (Option.map _) hread).trans (congrArg some hm), ?_⟩
    exact samePairs_of_forall₂ heq

/-! ### Every type -/

variable (hemit : ∀ z, Y.emit (.scalar (I.write z)) = I.write z)
  (hlex : ∀ z, I.read (I.write z) = some z)

include hemit hlex

theorem OrderedTy.sound (t : OrderedTy) : (t.type Y I).Sound Y := by
  induction t with
  | int => exact int_sound hemit hlex
  | vector t ih => exact sequence_sound ih
  | list t ih => exact sequence_sound ih
  | set t ih => exact set_sound ih
  | map t ih => exact map_sound ih

theorem Ty.sound (t : Ty) : (t.type Y I).Sound Y := by
  induction t with
  | ordered t => exact t.sound hemit hlex
  | vector t ih => exact sequence_sound ih
  | list t ih => exact sequence_sound ih
  | unordered_set t => exact unordered_set_sound (t.sound hemit hlex)
  | map t ih => exact map_sound ih
  | unordered_map t ih => exact unordered_map_sound ih

/-- A value of any nesting of the containers over `int` is equal to what its text is
    read as, where `Load` undoes the emitter on the nodes of its tree, a decimal text
    is that of its scalar, and `lexical_cast` is exact on `int`. -/
theorem roundTrip (t : Ty) (v : (t.type Y I).T) (hload : Written Y ((t.type Y I).tree v)) :
    ∃ text v', (t.type Y I).toText v = some text ∧ (t.type Y I).ofText text = some v'
      ∧ (t.type Y I).eq v' v = true := by
  have hsound := t.sound hemit hlex
  obtain ⟨v', hread, heq⟩ := hsound.ofText v hload
  exact ⟨_, v', hsound.toText v hload, hread, heq⟩

end roundTrip

/-- `int` in decimal. -/
def decimal : LexicalInt :=
  { write := fun z => z.toInt.repr
    read := fun text => text.toInt?.bind fun z =>
      if (Int32.ofInt z).toInt = z then some (Int32.ofInt z) else none }

theorem decimal_read_write (z : Int32) : decimal.read (decimal.write z) = some z := by
  simp [decimal]

/-- The text form of `a: [1, 2]` and what is in it. -/
def oneMap : Yaml :=
  let items := Node.sequence [.scalar "1", .scalar "2"]
  { load := fun text =>
      if text = "a:\n  - 1\n  - 2" then some (.map [("a", items)])
      else if text = "- 1\n- 2" then some items
      else some (.scalar text)
    emit := fun
      | .scalar text => text
      | .sequence _ => "- 1\n- 2"
      | _ => "a:\n  - 1\n  - 2" }

theorem roundTrip_oneMap :
    let E := (Ty.map (.vector (.ordered .int))).type oneMap decimal
    let v : Ordered (Prod.fst : String × List Int32 → String) := .single ("a", [1, 2])
    ∃ text v', E.toText v = some text ∧ E.ofText text = some v' ∧ E.eq v' v = true := by
  intro E v
  have hemit : ∀ z, oneMap.emit (.scalar (decimal.write z)) = decimal.write z := fun _ => rfl
  apply roundTrip hemit decimal_read_write (.map (.vector (.ordered .int))) v
  show Written oneMap (.map [("a", .sequence [.scalar "1", .scalar "2"])])
  intro m hm
  cases hm with
  | root => rfl
  | value hp hm =>
    rw [List.mem_singleton.mp hp] at hm
    cases hm with
    | root => rfl
    | item hn hm =>
      simp only [List.mem_cons, List.not_mem_nil, or_false] at hn
      rcases hn with rfl | rfl
      · cases hm
        rfl
      · cases hm
        rfl

end Gwn.Config
