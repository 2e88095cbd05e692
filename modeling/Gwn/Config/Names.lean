import Gwn.Config.Load

/-! # The names of variables

    A name is made of segments joined by dots, which a configuration file spells as a
    path of nested maps. `LookUp` and the walk over a tree check names against the same
    alphabet, written out by hand in both places. It has all lower-case letters, `_` and
    the dot, and of the digits all but 9, so a name can be registered and then loaded
    exactly as long as there is no 9 in it (`not_usable`, `usable_iff`). -/

namespace Gwn.Config

section names
variable {K : Type} {types : K → VarType}

/-- The overload `LookUp(name)`. It returns null when there is no variable of this name
    and type. -/
def LookUpName [DecidableEq K] (type : K) (name : String) (datas : Registry types) :
    Option (ConfigVar types) :=
  (datas name).bind fun var => if var.type = type then some var else none

/-! ### Well-formed names -/

/-- Lower-case letters, decimal digits and `_`. -/
def segmentChar (c : Char) : Bool :=
  c.isLower || c.isDigit || c = '_'

/-- One or more segments, none of them empty. -/
structure Segments (keys : List String) : Prop where
  some : keys ≠ []
  nonempty : ∀ k ∈ keys, k ≠ ""
  chars : ∀ k ∈ keys, ∀ c ∈ k.toList, segmentChar c = true

/-- The nested maps that spell a path. -/
def spelled (leaf : Node) : List String → Node
  | [] => leaf
  | key :: keys => .map [(key, spelled leaf keys)]

/-- The variable can be registered, is found then, and takes the text of a leaf at its
    path. Others do not notice, unless their path leads there as well. -/
def Usable [DecidableEq K] (Y : Yaml) (datas : Registry types) (keys : List String) (type : K)
    (default_value : (types type).T) (description : String) : Prop :=
  ∃ datas' v, LookUp type (joined keys) default_value description datas
    = some (datas', some v) ∧
    LookUpName type (joined keys) datas' = some v ∧
    ∀ t, LoadFromYaml Y (spelled (.scalar t) keys) datas' (joined keys)
      = some (v.fromString t).1 ∧
      ∀ name, (∀ pre, pre ≠ [] → pre <+: keys → name ≠ joined pre) →
        LoadFromYaml Y (spelled (.scalar t) keys) datas' name = datas' name

/-! ### The alphabet -/

theorem joined_cons (k : String) {keys : List String} (hkeys : keys ≠ []) :
    joined (k :: keys) = k ++ "." ++ joined keys := by
  unfold joined
  rw [String.intercalate_cons_of_ne_nil hkeys]

theorem mem_joined {keys : List String} {c : Char} (hc : c ∈ (joined keys).toList) :
    c = '.' ∨ ∃ k ∈ keys, c ∈ k.toList := by
  induction keys with
  | nil => simp [joined] at hc
  | cons k keys ih =>
    by_cases hkeys : keys = []
    · subst hkeys
      have hc : c ∈ k.toList := by simpa [joined] using hc
      exact .inr ⟨k, List.mem_cons_self, hc⟩
    · rw [joined_cons k hkeys] at hc
      simp only [String.toList_append, List.mem_append] at hc
      rcases hc with (hc | hc) | hc
      · exact .inr ⟨k, List.mem_cons_self, hc⟩
      · exact .inl (by simpa using hc)
      · rcases ih hc with hdot | ⟨k', hk', hc⟩
        · exact .inl hdot
        · exact .inr ⟨k', List.mem_cons_of_mem k hk', hc⟩

/-- Of what a segment may have, the alphabet lacks the 9. -/
theorem mem_alphabet_iff {c : Char} (hc : segmentChar c = true ∨ c = '.') :
    c ∈ alphabet ↔ c ≠ '9' := by
  have hall : ∀ n : Fin 128, (segmentChar (Char.ofNat n) = true ∨ Char.ofNat n = '.') →
      (Char.ofNat n ∈ alphabet ↔ Char.ofNat n ≠ '9') := by decide
  -- letters, digits, '_' and '.' are ASCII
  have hsmall : c.toNat < 128 := by
    rcases hc with hc | rfl
    · simp only [segmentChar, Char.isLower, Char.isDigit, Bool.or_eq_true, Bool.and_eq_true,
        decide_eq_true_eq, UInt32.le_iff_toNat_le, ge_iff_le] at hc
      have hz : 'z'.val.toNat = 122 := rfl
      have hnine : '9'.val.toNat = 57 := rfl
      have hval : c.toNat = c.val.toNat := rfl
      rcases hc with (hc | hc) | rfl
      · omega
      · omega
      · decide
    · decide
  have hthis := hall ⟨c.toNat, hsmall⟩
  rw [Char.ofNat_toNat] at hthis
  exact hthis hc

theorem validName_iff {keys : List String} (h : Segments keys) :
    validName (joined keys) = true ↔ '9' ∉ (joined keys).toList := by
  have hchar : ∀ c ∈ (joined keys).toList, c ∈ alphabet ↔ c ≠ '9' := by
    intro c hc
    apply mem_alphabet_iff
    rcases mem_joined hc with hdot | ⟨k, hk, hc⟩
    · exact .inr hdot
    · exact .inl (h.chars k hk c hc)
  unfold validName
  simp only [List.all_eq_true, decide_eq_true_eq]
  constructor
  · intro hall hnine
    exact (hchar '9' hnine).mp (hall '9' hnine) rfl
  · intro hnine c hc
    apply (hchar c hc).mpr
    rintro rfl
    exact hnine hc

/-! ### The walk along a path -/

theorem joined_ne_prefix {pre rest : List String} (hkeys : ∀ k ∈ pre ++ rest, k ≠ "")
    (hrest : rest ≠ []) :
    joined pre ≠ joined (pre ++ rest) := by
  intro heq
  by_cases hpre : pre = []
  · subst hpre
    exact joined_ne_empty hkeys hrest heq.symm
  · unfold joined at heq
    rw [String.intercalate_append_of_ne_nil hpre hrest] at heq
    have hlength := congrArg String.length heq
    have hdot : ".".length = 1 := by decide
    simp only [String.length_append] at hlength
    omega

theorem keyed_spelled {keys : List String} (hkeys : ∀ k ∈ keys, k ≠ "") (t : String) :
    Keyed (spelled (.scalar t) keys) := by
  induction keys with
  | nil =>
    intro pairs hpairs
    cases hpairs
  | cons key keys ih =>
    obtain ⟨hkey, hkeys⟩ := List.forall_mem_cons.mp hkeys
    intro pairs hpairs
    cases hpairs with
    | root =>
      intro p hp
      rw [List.mem_singleton.mp hp]
      exact hkey
    | value hq hpairs =>
      rw [List.mem_singleton.mp hq] at hpairs
      exact ih hkeys pairs hpairs

/-- The nodes that the walk comes by, each under the path so far. -/
theorem mem_nodes_spelled {pre keys : List String} {leaf : Node}
    (hleaf : ∀ pairs, leaf ≠ .map pairs)
    {e : List String × Node} (he : e ∈ nodes pre (spelled leaf keys)) :
    ∃ r, r <+: keys ∧ e.1 = pre ++ r ∧ (r = keys → e.2 = leaf) := by
  induction keys generalizing pre with
  | nil =>
    rw [spelled, nodes_leaf hleaf] at he
    rw [List.mem_singleton.mp he]
    exact ⟨[], List.prefix_rfl, by simp, fun _ => rfl⟩
  | cons key keys ih =>
    rw [spelled, nodes_map] at he
    rcases List.mem_cons.mp he with rfl | he
    · exact ⟨[], List.nil_prefix, by simp, nofun⟩
    · have he : e ∈ nodes (pre ++ [key]) (spelled leaf keys) := by simpa using he
      obtain ⟨r, hr, hkeys, hend⟩ := ih he
      refine ⟨key :: r, (List.cons_prefix_cons).mpr ⟨rfl, hr⟩, by simpa using hkeys, ?_⟩
      intro heq
      exact hend (List.cons.inj heq).2

/-- Only the leaf has the whole path. -/
theorem nodes_spelled_filter {pre keys : List String} {leaf : Node}
    (hleaf : ∀ pairs, leaf ≠ .map pairs) (hkeys : ∀ k ∈ pre ++ keys, k ≠ "") :
    (nodes pre (spelled leaf keys)).filter (fun e => joined e.1 = joined (pre ++ keys))
      = [(pre ++ keys, leaf)] := by
  induction keys generalizing pre with
  | nil =>
    rw [spelled, nodes_leaf hleaf]
    simp
  | cons key keys ih =>
    have hsplit : pre ++ key :: keys = (pre ++ [key]) ++ keys := by simp
    have hne : joined pre ≠ joined (pre ++ key :: keys) := joined_ne_prefix hkeys (by simp)
    rw [hsplit] at hkeys hne ⊢
    rw [spelled, nodes_map, List.filter_cons_of_neg (by simpa using hne), List.flatMap_cons,
      List.flatMap_nil, List.append_nil]
    exact ih hkeys

/-- Loading a path gives its leaf to the variable of its name, and no other name is
    touched unless the path leads there. -/
theorem LoadFromYaml_spelled {Y : Yaml} {datas : Registry types} {keys : List String}
    (hkeys : Segments keys) (hvalid : validName (joined keys) = true) (t : String) :
    (LoadFromYaml Y (spelled (.scalar t) keys) datas (joined keys)
        = (datas (joined keys)).map fun var => (var.fromString t).1) ∧
      ∀ name, (∀ pre, pre ≠ [] → pre <+: keys → name ≠ joined pre) →
        LoadFromYaml Y (spelled (.scalar t) keys) datas name = datas name := by
  have hroot := keyed_spelled hkeys.nonempty t
  have hnone : ∀ k ∈ ([] : List String), k ≠ "" := nofun
  have hleaf : ∀ pairs, Node.scalar t ≠ .map pairs := nofun
  constructor
  · -- of the nodes on the path only the leaf has the whole name
    have hempty := joined_ne_empty hkeys.nonempty hkeys.some
    have hlist : (ListAllMember "" (spelled (.scalar t) keys)).filter
        (fun i => i.1 ≠ "" ∧ i.1 = joined keys) = [(joined keys, .scalar t)] := by
      have hnodes : (nodes [] (spelled (.scalar t) keys)).filter (fun e => joined e.1 = joined keys)
          = [(keys, .scalar t)] := @nodes_spelled_filter [] keys _ hleaf hkeys.nonempty
      have hfilter := ListAllMember_filter hvalid hroot hnone
      rw [hnodes] at hfilter
      rw [← List.filter_congr (p := fun i : String × Node => i.1 = joined keys)]
      · exact hfilter
      · intro i _
        rw [decide_eq_decide]
        constructor
        · intro hi
          exact ⟨by rwa [hi], hi⟩
        · intro hi
          exact hi.2
    unfold LoadFromYaml
    rw [foldl_loadNode (ListAllMember_valid ""), hlist]
    rfl
  · -- every node of the path has the name of a prefix
    intro name hname
    have hlist : (ListAllMember "" (spelled (.scalar t) keys)).filter
        (fun i => i.1 ≠ "" ∧ i.1 = name) = [] := by
      rw [List.filter_eq_nil_iff]
      intro i hi heq
      obtain ⟨hempty, rfl⟩ := of_decide_eq_true heq
      have hmem : i ∈ (ListAllMember (joined []) (spelled (.scalar t) keys)).filter
          fun j => j.1 = i.1 := List.mem_filter.mpr ⟨hi, by simp⟩
      rw [ListAllMember_filter (ListAllMember_valid "" i hi) hroot hnone] at hmem
      obtain ⟨e, he, -⟩ := List.mem_map.mp hmem
      obtain ⟨he, hjoined⟩ := List.mem_filter.mp he
      have hjoined : joined e.1 = i.1 := of_decide_eq_true hjoined
      obtain ⟨r, hr, hpre, -⟩ := mem_nodes_spelled hleaf he
      rw [List.nil_append] at hpre
      rw [hpre] at hjoined
      refine hname r ?_ hr hjoined.symm
      rintro rfl
      exact hempty hjoined.symm
    unfold LoadFromYaml
    rw [foldl_loadNode (ListAllMember_valid ""), hlist]
    cases datas name <;> rfl

/-! ### Registering and loading -/

/-- Every name of well-formed segments that is not registered yet can be registered and
    loaded, if and only if there is no 9 in it. -/
theorem usable_iff [DecidableEq K] {Y : Yaml} {datas : Registry types} {keys : List String}
    (hkeys : Segments keys) (hnew : datas (joined keys) = none) (type : K)
    (default_value : (types type).T) (description : String) :
    Usable Y datas keys type default_value description ↔ '9' ∉ (joined keys).toList := by
  rw [← validName_iff hkeys]
  constructor
  · rintro ⟨datas', v, hlook, -⟩
    by_contra hvalid
    simp [LookUp, hnew, hvalid] at hlook
  · intro hvalid
    have hlook : LookUp type (joined keys) default_value description datas =
        some (Function.update datas (joined keys)
          (some (ConfigVar.new types type (joined keys) default_value description)),
          some (ConfigVar.new types type (joined keys) default_value description)) := by
      simp [LookUp, hnew, hvalid]
    refine ⟨_, _, hlook, ?_, fun t => ?_⟩
    · simp [LookUpName, ConfigVar.new]
    · obtain ⟨hself, hothers⟩ := LoadFromYaml_spelled (Y := Y) hkeys hvalid t
      refine ⟨?_, hothers⟩
      rw [hself, Function.update_self]
      rfl

end names

theorem segments_of_all {keys : List String} (hkeys : keys ≠ [])
    (h : (keys.all fun k => k ≠ "" && k.toList.all segmentChar) = true) : Segments keys := by
  simp only [List.all_eq_true, Bool.and_eq_true, decide_eq_true_eq] at h
  refine ⟨hkeys, ?_, ?_⟩
  · intro k hk
    exact (h k hk).1
  · intro k hk
    exact (h k hk).2

/-- The name "log.file_8", as a path. -/
theorem usable_iff_file :
    Usable plain (fun _ => none : Registry fun _ : Unit => stringType) ["log", "file_8"]
      () "0" "" := by
  have hkeys : Segments ["log", "file_8"] := segments_of_all (by simp) (by decide)
  have hjoined : joined ["log", "file_8"] = "log.file_8" := by simp [joined]
  have hnine : '9' ∉ (joined ["log", "file_8"]).toList := by
    rw [hjoined]
    decide
  exact (@usable_iff Unit (fun _ => stringType) _ plain (fun _ => none) _ hkeys rfl
    () "0" "").mpr hnine

/-- The name "port9" is refused. -/
theorem not_usable : ¬ ∀ (K : Type) [DecidableEq K] (types : K → VarType) (Y : Yaml)
    (datas : Registry types) (keys : List String) (type : K) (default_value : (types type).T)
    (description : String), Segments keys → datas (joined keys) = none →
    Usable Y datas keys type default_value description := by
  intro h
  have hkeys : Segments ["port9"] := segments_of_all (by simp) (by decide)
  have hjoined : joined ["port9"] = "port9" := by simp [joined]
  obtain ⟨datas', v, hlook, -⟩ :=
    h Unit (fun _ => stringType) plain (fun _ => none) ["port9"] () ("0" : String) "" hkeys rfl
  have hvalid : validName "port9" = false := by decide
  rw [hjoined] at hlook
  simp [LookUp, hvalid] at hlook

end Gwn.Config
