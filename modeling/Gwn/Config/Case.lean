import Gwn.Config.Cast
import Gwn.Config.Load

/-! # Upper-case keys

    `LoadFromYaml` lowers the name of a node before it looks the variable up, but the
    walk has dropped by then what has an upper-case letter in its name, with all that
    is below. So a tree and the same tree with its keys in lower case are loaded alike
    if what can be the name of a variable, and what is below it, is in lower case
    already, and otherwise some variable sees the difference (`not_caseless`,
    `caseless_iff`). -/

namespace Gwn.Config

/-! ### The tree in lower case -/

mutual

def lowered : Node → Node
  | .map pairs => .map (loweredPairs pairs)
  | .sequence items => .sequence (loweredItems items)
  | node => node

def loweredItems : List Node → List Node
  | [] => []
  | n :: items => lowered n :: loweredItems items

def loweredPairs : List (String × Node) → List (String × Node)
  | [] => []
  | p :: pairs => loweredPair p :: loweredPairs pairs

def loweredPair : String × Node → String × Node
  | (key, node) => (tolower key, lowered node)

end

theorem loweredPairs_eq (pairs : List (String × Node)) :
    loweredPairs pairs = pairs.map loweredPair := by
  induction pairs with
  | nil => rfl
  | cons p pairs ih => rw [loweredPairs, ih, List.map_cons]

theorem lowered_map (pairs : List (String × Node)) :
    lowered (.map pairs) = .map (pairs.map loweredPair) := by
  rw [lowered, loweredPairs_eq]

theorem loweredPair_eq (p : String × Node) : loweredPair p = (tolower p.1, lowered p.2) := by
  cases p
  rw [loweredPair]

theorem lowered_leaf {n : Node} (h : ∀ pairs, n ≠ .map pairs) :
    ∀ pairs, lowered n ≠ .map pairs := by
  cases n with
  | map pairs => exact absurd rfl (h pairs)
  | _ => simp [lowered]

/-- A tree and the tree with its keys in lower case do the same to every registry. -/
def SameLoads (Y : Yaml) (root : Node) : Prop :=
  ∀ (K : Type) (types : K → VarType) (datas : Registry types),
    LoadFromYaml Y root datas = LoadFromYaml Y (lowered root) datas

/-- `p` is a pair at the top of the tree. An empty key does not count as a level. -/
inductive Top (p : String × Node) : Node → Prop where
  | here {pairs} : p ∈ pairs → p.1 ≠ "" → Top p (.map pairs)
  | under {pairs n} : ("", n) ∈ pairs → Top p n → Top p (.map pairs)

/-- Keys at the top that have the letters of a name are in lower case, with all below them. -/
def LowerCase (root : Node) : Prop :=
  ∀ p, Top p root → validName (tolower p.1) = true → loweredPair p = p

/-! ### What is listed -/

/-- The nodes of the walk that have a name. -/
def listed (n : Node) : List (String × Node) :=
  (ListAllMember "" n).filter fun i => i.1 ≠ ""

theorem memberName_ne_empty {pre key : String} (h : pre ≠ "" ∨ key ≠ "") :
    memberName pre key ≠ "" := by
  unfold memberName
  split
  · next hpre =>
    rcases h with h | h
    · exact absurd hpre h
    · exact h
  · intro heq
    have hlist := congrArg String.toList heq
    simp at hlist

theorem memberName_empty (key : String) : memberName "" key = key := rfl

theorem validName_of_memberName {pre key : String} (h : validName (memberName pre key) = true) :
    validName key = true := by
  unfold memberName at h
  split at h
  · exact h
  · rw [validName_append, Bool.and_eq_true] at h
    exact h.2

theorem ListAllMember_ne_empty {n : Node} {pre : String} (hpre : pre ≠ "") :
    ∀ i ∈ ListAllMember pre n, i.1 ≠ "" := by
  induction n using Node.induct generalizing pre with
  | leaf n hleaf =>
    intro i hi
    rw [ListAllMember_leaf hleaf] at hi
    split at hi
    · cases hi
    · rw [List.mem_singleton.mp hi]
      exact hpre
  | hmap pairs ih =>
    intro i hi
    by_cases hvalid : validName pre = true
    · rw [ListAllMember_map hvalid] at hi
      rcases List.mem_cons.mp hi with rfl | hi
      · exact hpre
      · obtain ⟨p, hp, hi⟩ := List.mem_flatMap.mp hi
        exact ih p hp (memberName_ne_empty (.inl hpre)) i hi
    · rw [ListAllMember_invalid hvalid] at hi
      cases hi

theorem listed_leaf {n : Node} (h : ∀ pairs, n ≠ .map pairs) : listed n = [] := by
  unfold listed
  rw [ListAllMember_leaf h]
  rfl

/-- The pairs at the top are walked one after the other. -/
theorem listed_map (pairs : List (String × Node)) :
    listed (.map pairs) = pairs.flatMap fun p => if p.1 = "" then listed p.2
      else ListAllMember p.1 p.2 := by
  unfold listed
  rw [ListAllMember_map (by decide), List.filter_cons_of_neg (by simp), List.filter_flatMap]
  apply List.flatMap_congr
  intro p hp
  rw [memberName_empty]
  by_cases hkey : p.1 = ""
  · rw [if_pos hkey, hkey]
  · rw [if_neg hkey, List.filter_eq_self]
    intro i hi
    simpa using ListAllMember_ne_empty hkey i hi

/-- What is loaded depends on what is listed only. -/
theorem LoadFromYaml_listed {K : Type} {types : K → VarType} (Y : Yaml) (root : Node)
    (datas : Registry types) :
    LoadFromYaml Y root datas = (listed root).foldl (loadNode Y) datas := by
  have hskip : ∀ (l : List (String × Node)) (datas : Registry types),
      l.foldl (loadNode Y) datas = (l.filter fun i => i.1 ≠ "").foldl (loadNode Y) datas := by
    intro l
    induction l with
    | nil => exact fun _ => rfl
    | cons i l ih =>
      intro datas
      by_cases hi : i.1 = ""
      · rw [List.foldl_cons, List.filter_cons_of_neg (by simpa using hi), ← ih]
        simp [loadNode, hi]
      · rw [List.foldl_cons, List.filter_cons_of_pos (by simpa using hi), List.foldl_cons, ih]
  exact hskip _ datas

theorem tolower_empty_iff (s : String) : tolower s = "" ↔ s = "" := by
  unfold tolower
  rw [String.ofList_eq_empty_iff]
  simp

/-- The walk lowers nothing, so only names in lower case get through. -/
theorem validName_tolower {s : String} (h : validName s = true) : validName (tolower s) = true := by
  rwa [tolower_eq h]

theorem listed_lowered_map (pairs : List (String × Node)) :
    listed (lowered (.map pairs)) = pairs.flatMap fun p =>
      if p.1 = "" then listed (lowered p.2) else ListAllMember (tolower p.1) (lowered p.2) := by
  rw [lowered_map, listed_map, List.flatMap_map]
  apply List.flatMap_congr
  intro p _
  simp only [loweredPair_eq, tolower_empty_iff]

/-- A tree in lower case is listed like the tree itself, up to what has no name. -/
theorem listed_eq {n : Node} (h : LowerCase n) : listed n = listed (lowered n) := by
  induction n using Node.induct with
  | leaf n hleaf => rw [listed_leaf hleaf, listed_leaf (lowered_leaf hleaf)]
  | hmap pairs ih =>
    rw [listed_map, listed_lowered_map]
    apply List.flatMap_congr
    intro p hp
    by_cases hkey : p.1 = ""
    · rw [if_pos hkey, if_pos hkey]
      apply ih p hp
      intro q hq
      exact h q (.under (hkey ▸ hp) hq)
    · rw [if_neg hkey, if_neg hkey]
      by_cases hvalid : validName (tolower p.1) = true
      · have hsame := h p (.here hp hkey) hvalid
        rw [loweredPair_eq] at hsame
        have hname : tolower p.1 = p.1 := congrArg Prod.fst hsame
        have hnode : lowered p.2 = p.2 := congrArg Prod.snd hsame
        rw [hname, hnode]
      · -- not listed in lower case, and so not as it is
        rw [ListAllMember_invalid hvalid, ListAllMember_invalid]
        exact fun hsame => hvalid (validName_tolower hsame)

/-! ### The names of a tree -/

/-- In a list without duplicates, what belongs to one place is at no other place of a
    smaller list. -/
theorem not_mem_flatMap {α β : Type} {f g : α → List β} {l : List α}
    (h : ∀ a ∈ l, (f a).Sublist (g a)) (hnodup : (l.flatMap g).Nodup) {a : α}
    (ha : a ∈ l) {b : β} (hg : b ∈ g a) (hf : b ∉ f a) : b ∉ l.flatMap f := by
  obtain ⟨l₁, l₂, rfl⟩ := List.append_of_mem ha
  rw [List.flatMap_append, List.flatMap_cons, List.nodup_append] at hnodup
  obtain ⟨-, hrest, hbefore⟩ := hnodup
  obtain ⟨-, -, hafter⟩ := List.nodup_append.mp hrest
  intro hb
  rw [List.flatMap_append, List.flatMap_cons, List.mem_append, List.mem_append] at hb
  rcases hb with hb | hb | hb
  · obtain ⟨a', ha', hb⟩ := List.mem_flatMap.mp hb
    have hmem := (h a' (List.mem_append_left _ ha')).subset hb
    exact hbefore b (List.mem_flatMap.mpr ⟨a', ha', hmem⟩) b (List.mem_append_left _ hg) rfl
  · exact hf hb
  · obtain ⟨a', ha', hb⟩ := List.mem_flatMap.mp hb
    have hmem := (h a' (List.mem_append_right _ (List.mem_cons_of_mem a ha'))).subset hb
    exact hafter b hg b (List.mem_flatMap.mpr ⟨a', ha', hmem⟩) rfl

def names (l : List (String × Node)) : List String := l.map Prod.fst

theorem names_flatMap {α : Type} (f : α → List (String × Node)) (l : List α) :
    names (l.flatMap f) = l.flatMap fun a => names (f a) :=
  List.map_flatMap

/-- In lower case the walk gets at least as far. -/
theorem names_sublist {n : Node} (pre : String) :
    (names (ListAllMember pre n)).Sublist (names (ListAllMember pre (lowered n))) := by
  by_cases hpre : validName pre = true
  · induction n using Node.induct generalizing pre with
    | leaf n hleaf =>
      rw [ListAllMember_leaf hleaf, ListAllMember_leaf (lowered_leaf hleaf), hpre]
      exact List.Sublist.refl _
    | hmap pairs ih =>
      rw [lowered_map, ListAllMember_map hpre, ListAllMember_map hpre, List.flatMap_map]
      simp only [names, List.map_cons]
      apply List.Sublist.cons_cons
      show (names _).Sublist (names _)
      rw [names_flatMap, names_flatMap]
      apply List.Sublist.flatMap_right
      intro p hp
      -- below a name that does not get through the original lists nothing
      by_cases hvalid : validName (memberName pre p.1) = true
      · have hkey := tolower_eq (validName_of_memberName hvalid)
        rw [loweredPair_eq, hkey]
        exact ih p hp _ hvalid
      · rw [ListAllMember_invalid hvalid]
        exact List.nil_sublist _
  · rw [ListAllMember_invalid hpre]
    exact List.nil_sublist _

/-- One pair at the top, as it is and in lower case. -/
theorem names_pair_sublist {p : String × Node}
    (ih : (names (listed p.2)).Sublist (names (listed (lowered p.2)))) :
    (names (if p.1 = "" then listed p.2 else ListAllMember p.1 p.2)).Sublist
      (names (if p.1 = "" then listed (lowered p.2)
        else ListAllMember (tolower p.1) (lowered p.2))) := by
  by_cases hkey : p.1 = ""
  · rw [if_pos hkey, if_pos hkey]
    exact ih
  · rw [if_neg hkey, if_neg hkey]
    by_cases hvalid : validName p.1 = true
    · rw [tolower_eq hvalid]
      exact names_sublist p.1
    · rw [ListAllMember_invalid hvalid]
      exact List.nil_sublist _

theorem listed_sublist (n : Node) : (names (listed n)).Sublist (names (listed (lowered n))) := by
  induction n using Node.induct with
  | leaf n hleaf =>
    rw [listed_leaf hleaf]
    exact List.nil_sublist _
  | hmap pairs ih =>
    rw [listed_map, listed_lowered_map, names_flatMap, names_flatMap]
    apply List.Sublist.flatMap_right
    intro p hp
    exact names_pair_sublist (ih p hp)

theorem mem_ListAllMember {n : Node} {pre : String} (h : validName pre = true) :
    (pre, n) ∈ ListAllMember pre n := by
  cases n <;> simp [ListAllMember, h]

/-- What is at the top is listed, if its key is a name. -/
theorem Top.mem_listed {p : String × Node} {n : Node} (h : Top p n)
    (hvalid : validName p.1 = true) :
    p ∈ listed n := by
  induction h with
  | @here pairs hp hkey =>
    rw [listed_map]
    refine List.mem_flatMap.mpr ⟨p, hp, ?_⟩
    rw [if_neg hkey]
    exact mem_ListAllMember hvalid
  | @under pairs n hn _ ih =>
    rw [listed_map]
    refine List.mem_flatMap.mpr ⟨("", n), hn, ?_⟩
    rw [if_pos rfl]
    exact ih

theorem Top.lowered {p : String × Node} {n : Node} (h : Top p n) :
    Top (loweredPair p) (Config.lowered n) := by
  induction h with
  | @here pairs hp hkey =>
    rw [lowered_map]
    apply Top.here (List.mem_map_of_mem hp)
    rw [loweredPair_eq]
    exact fun hempty => hkey ((tolower_empty_iff p.1).mp hempty)
  | @under pairs n hn _ ih =>
    rw [lowered_map]
    have hpair : ("", Config.lowered n) ∈ pairs.map loweredPair := by
      refine List.mem_map.mpr ⟨("", n), hn, ?_⟩
      rw [loweredPair_eq]
      rfl
    exact .under hpair ih

/-- In lower case the key is a name; as it is, nothing has that name. -/
theorem Top.not_mem_names {p : String × Node} {n : Node} (h : Top p n)
    (hvalid : validName (tolower p.1) = true) (hupper : tolower p.1 ≠ p.1)
    (hnodup : (names (listed (Config.lowered n))).Nodup) : tolower p.1 ∉ names (listed n) := by
  -- if another pair had the name, the tree in lower case would have it twice
  induction h with
  | @here pairs hp hkey =>
    rw [listed_lowered_map, names_flatMap] at hnodup
    rw [listed_map, names_flatMap]
    refine not_mem_flatMap (fun q _ => names_pair_sublist (listed_sublist q.2)) hnodup hp ?_ ?_
    · rw [if_neg hkey]
      exact List.mem_map_of_mem (mem_ListAllMember hvalid)
    · rw [if_neg hkey, ListAllMember_invalid fun hsame => hupper (tolower_eq hsame)]
      exact List.not_mem_nil
  | @under pairs n hn htop ih =>
    rw [listed_lowered_map, names_flatMap] at hnodup
    rw [listed_map, names_flatMap]
    have hlow : tolower p.1 ∈ names (listed (Config.lowered n)) := by
      have hmem := htop.lowered.mem_listed (by rwa [loweredPair_eq])
      rw [loweredPair_eq] at hmem
      exact List.mem_map_of_mem (f := Prod.fst) hmem
    have hsub : (names (listed (Config.lowered n))).Nodup := by
      have hone := (List.nodup_flatMap.mp hnodup).1 ("", n) hn
      rwa [if_pos rfl] at hone
    refine not_mem_flatMap (fun q _ => names_pair_sublist (listed_sublist q.2)) hnodup hn ?_ ?_
    · rw [if_pos rfl]
      exact hlow
    · rw [if_pos rfl]
      exact ih hsub

/-! ### A variable that sees one text -/

/-- The values tell whether the text `target` has been given. -/
def seenType (target : String) : VarType :=
  { T := Bool, eq := fun a b => a = b, fromStr := fun t => if t = target then some true else none }

def seenVar (target name : String) (seen : Bool) : ConfigVar fun _ : Unit => seenType target :=
  { type := (), name := tolower name, description := "", val := seen, cbs := LTS.Ordered.empty }

theorem seenVar_fromString (target name t : String) (seen : Bool) :
    ((seenVar target name seen).fromString t).1 = seenVar target name (seen || t = target) := by
  by_cases ht : t = target
  · cases seen <;>
      simp [ConfigVar.fromString, ConfigVar.setValue, seenVar, seenType, ht, LTS.Ordered.empty]
  · simp [ConfigVar.fromString, seenVar, seenType, ht]

theorem foldl_seenVar (Y : Yaml) (target name : String) (l : List (String × Node)) (seen : Bool) :
    l.foldl (fun var i => (var.fromString (text Y i.2)).1) (seenVar target name seen)
      = seenVar target name (seen || l.any fun i => text Y i.2 = target) := by
  induction l generalizing seen with
  | nil => simp
  | cons i l ih => rw [List.foldl_cons, seenVar_fromString, ih, List.any_cons, Bool.or_assoc]

/-- After loading, the variable tells whether a node of its name has the text. -/
theorem load_seenVar (Y : Yaml) (root : Node) (target name : String) :
    LoadFromYaml Y root
      (Function.update (fun _ => none) name (some (seenVar target name false))) name
      = some (seenVar target name
        ((listed root).any fun i => i.1 = name && text Y i.2 = target)) := by
  have hvalid : ∀ i ∈ listed root, validName i.1 = true :=
    fun i hi => ListAllMember_valid "" i (List.mem_filter.mp hi).1
  rw [LoadFromYaml_listed, foldl_loadNode hvalid, Function.update_self, Option.map_some,
    foldl_seenVar, Bool.false_or, List.any_filter]
  refine congrArg (fun seen => some (seenVar target name seen)) ?_
  rw [Bool.eq_iff_iff, List.any_eq_true, List.any_eq_true]
  apply exists_congr
  intro i
  apply and_congr_right
  intro hi
  have hne : i.1 ≠ "" := by simpa using (List.mem_filter.mp hi).2
  simp [hne]

/-- If both trees do the same to every registry, what is listed of one is listed of the
    other, with the same text. -/
theorem SameLoads.text_eq {Y : Yaml} {root : Node} (h : SameLoads Y root) {i : String × Node}
    (hi : i ∈ listed (lowered root)) :
    ∃ n, (i.1, n) ∈ listed root ∧ text Y n = text Y i.2 := by
  -- the registry with one variable, of that name, that tells whether it is given that text
  have hload := congrFun (h Unit (fun _ => seenType (text Y i.2))
    (Function.update (fun _ => none) i.1 (some (seenVar (text Y i.2) i.1 false)))) i.1
  rw [load_seenVar, load_seenVar] at hload
  have hval : (some _ : Option Bool) = some _ :=
    congrArg (Option.map fun var : ConfigVar (fun _ : Unit => seenType (text Y i.2)) =>
      (var.val : Bool)) hload
  have hany : ((listed root).any fun j => j.1 = i.1 && text Y j.2 = text Y i.2)
      = (listed (lowered root)).any fun j => j.1 = i.1 && text Y j.2 = text Y i.2 :=
    Option.some.inj hval
  have hseen :
      ((listed (lowered root)).any fun j => j.1 = i.1 && text Y j.2 = text Y i.2) = true := by
    rw [List.any_eq_true]
    exact ⟨i, hi, by simp⟩
  rw [hseen, List.any_eq_true] at hany
  obtain ⟨⟨key, n⟩, hj, heq⟩ := hany
  simp only [Bool.and_eq_true, decide_eq_true_eq] at heq
  obtain ⟨rfl, htext⟩ := heq
  exact ⟨n, hj, htext⟩

/-! ### When the case makes no difference -/

theorem within_of_listed {i : String × Node} {root : Node} (hi : i ∈ listed root) :
    i.2.Within root := by
  have hall : ∀ (n : Node) (pre : String), ∀ i ∈ ListAllMember pre n, i.2.Within n := by
    intro n
    induction n using Node.induct with
    | leaf n hleaf =>
      intro pre i hi
      rw [ListAllMember_leaf hleaf] at hi
      split at hi
      · cases hi
      · rw [List.mem_singleton.mp hi]
        exact .root
    | hmap pairs ih =>
      intro pre i hi
      by_cases hvalid : validName pre = true
      · rw [ListAllMember_map hvalid] at hi
        rcases List.mem_cons.mp hi with rfl | hi
        · exact .root
        · obtain ⟨p, hp, hi⟩ := List.mem_flatMap.mp hi
          exact .value hp (ih p hp _ i hi)
      · rw [ListAllMember_invalid hvalid] at hi
        cases hi
  exact hall root "" i (List.mem_filter.mp hi).1

/-- The text of a node tells whether it is in lower case. -/
theorem lowered_eq_of_text {Y : Yaml} {n : Node} (h : Y.load (Y.emit n) = some n)
    (h' : Y.load (Y.emit (lowered n)) = some (lowered n)) (htext : text Y n = text Y (lowered n)) :
    lowered n = n := by
  have emit : ∀ m, (∀ t, m ≠ .scalar t) → text Y m = Y.emit m := by
    intro m hm
    cases m with
    | scalar t => exact absurd rfl (hm t)
    | _ => rfl
  -- a scalar has no keys, and what the emitter writes of another node determines it
  by_cases hscalar : ∃ t, n = .scalar t
  · obtain ⟨t, rfl⟩ := hscalar
    simp [lowered]
  · have hn : ∀ t, n ≠ .scalar t := fun t ht => hscalar ⟨t, ht⟩
    have hn' : ∀ t, lowered n ≠ .scalar t := by
      intro t
      cases n with
      | scalar t' => exact absurd rfl (hn t')
      | _ => simp [lowered]
    rw [emit n hn, emit (lowered n) hn'] at htext
    rw [htext, h'] at h
    exact Option.some.inj h

/-- For every tree in which lower-casing the keys gives no two nodes the same name, and on
    the nodes of which `Load` undoes the emitter: the tree and the tree in lower case do
    the same to every registry if and only if all keys at the top that have the letters
    of a name are in lower case, with all keys below them. -/
theorem caseless_iff {Y : Yaml} {root : Node}
    (hnames : ((listed (lowered root)).map Prod.fst).Nodup)
    (hwritten : Written Y root) (hwritten' : Written Y (lowered root)) :
    SameLoads Y root ↔ LowerCase root := by
  constructor
  · intro h p hp hvalid
    have hlow := hp.lowered.mem_listed (by rwa [loweredPair_eq])
    rw [loweredPair_eq] at hlow
    obtain ⟨n, hn, htext⟩ := h.text_eq hlow
    have hname : tolower p.1 = p.1 := by
      by_contra hupper
      exact hp.not_mem_names hvalid hupper hnames (List.mem_map_of_mem (f := Prod.fst) hn)
    rw [hname] at hn hvalid
    -- of this name there is one node
    have hnodup : (names (listed root)).Nodup := (listed_sublist root).nodup hnames
    have hsame : n = p.2 := by
      have hpair := List.inj_on_of_nodup_map hnodup hn (hp.mem_listed hvalid) rfl
      exact congrArg Prod.snd hpair
    subst hsame
    have hload := hwritten _ (within_of_listed hn)
    have hload' := hwritten' _ (within_of_listed hlow)
    rw [loweredPair_eq, hname, lowered_eq_of_text hload hload' htext]
  · intro h K types datas
    rw [LoadFromYaml_listed, LoadFromYaml_listed, listed_eq h]

/-- The text form of a map with one key that has the value 1. -/
def onePair (key : String) : Yaml :=
  { load := fun text =>
      if text = key ++ ": 1" then some (.map [(key, .scalar "1")])
      else if text = tolower key ++ ": 1" then some (.map [(tolower key, .scalar "1")])
      else some (.scalar text)
    emit := fun
      | .map [(k, .scalar t)] => k ++ ": " ++ t
      | .scalar t => t
      | _ => "~" }

theorem onePair_written {key k : String}
    (hload : (onePair key).load (k ++ ": " ++ "1") = some (.map [(k, .scalar "1")]))
    (hone : (onePair key).load "1" = some (.scalar "1")) :
    Written (onePair key) (.map [(k, .scalar "1")]) := by
  intro m hm
  cases hm with
  | root => exact hload
  | value hp hm =>
    rw [List.mem_singleton.mp hp] at hm
    cases hm
    exact hone

/-- A key that is no name in lower case either. -/
theorem caseless_iff_dash : SameLoads (onePair "X-y") (.map [("X-y", .scalar "1")]) := by
  have hone : (onePair "X-y").load "1" = some (.scalar "1") := rfl
  have hnames : ((listed (lowered (.map [("X-y", .scalar "1")]))).map Prod.fst).Nodup := by decide
  apply (caseless_iff hnames (onePair_written rfl hone) (onePair_written rfl hone)).mpr
  intro p hp hvalid
  cases hp with
  | here hp _ =>
    rw [List.mem_singleton.mp hp] at hvalid
    exact absurd hvalid (by decide)
  | under hn _ =>
    have hkey : "" = "X-y" := congrArg Prod.fst (List.mem_singleton.mp hn)
    exact absurd hkey (by decide)

/-- The variable "a" does not see `A: 1`. -/
theorem not_caseless :
    ¬ ∀ (Y : Yaml) (root : Node), ((listed (lowered root)).map Prod.fst).Nodup →
    Written Y root → Written Y (lowered root) → SameLoads Y root := by
  intro h
  have hone : (onePair "A").load "1" = some (.scalar "1") := rfl
  have hsame := h (onePair "A") (.map [("A", .scalar "1")]) (by decide) (onePair_written rfl hone)
    (onePair_written rfl hone)
  have hload := congrFun (hsame Unit (fun _ => stringType) (oneVar "a")) "a"
  have hval : (some "0" : Option String) = some "1" :=
    congrArg (Option.map fun var : ConfigVar (fun _ : Unit => stringType) =>
      (var.val : String)) hload
  exact absurd hval (by decide)

end Gwn.Config
