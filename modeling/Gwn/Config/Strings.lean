import Gwn.Config.Cast

/-! # Containers of strings

    `LexicalCast<std::string, std::string>` copies (gwn/config.h). In a container this
    means that a string is handed to `Load` as it is, as if it were the text of a node,
    and that what comes back is the text of that node:

    - `string`, `Strings`: the type and its containers
    - `Normal`: a string that is the text of the node which it is read as
    - `strings_roundTrip_iff`: a container comes back if and only if all its strings are normal -/

namespace Gwn.Config

open LTS

section casts
variable (Y : Yaml)

/-- `std::string`. The tree is that of the node which the string is read as. -/
def string : OrderedType where
  T := String
  eq a b := a = b
  toText := some
  ofText := some
  tree s := (Y.load s).getD .null
  ord := inferInstance
  eq_iff _ _ := by simp

/-- The containers of strings. -/
inductive Strings where
  | vector
  | list
  | set
  | map
deriving DecidableEq, Repr

def Strings.type : Strings → CastType
  | vector => Config.vector Y (string Y).toCastType
  | list => Config.list Y (string Y).toCastType
  | set => Config.set Y (string Y)
  | map => Config.map Y (string Y).toCastType

/-- The elements, or the values of a map. -/
def Strings.elements : (k : Strings) → (k.type Y).T → List String
  | vector, v => v
  | list, v => v
  | set, v => v.entries
  | map, v => v.entries.map Prod.snd

/-- `Load` reads the string as a node, and the emitter writes this node as the string. -/
def Normal (s : String) : Prop :=
  (Y.load s).map Y.emit = some s

instance (s : String) : Decidable (Normal Y s) :=
  inferInstanceAs (Decidable ((Y.load s).map Y.emit = some s))

/-- The text of the node that a string is read as. -/
def rewritten (s : String) : String :=
  Y.emit ((string Y).tree s)

end casts

/-- `LexicalCast<std::string, C>(LexicalCast<C, std::string>(v)) == v`. -/
def CastType.RoundTrips (C : CastType) (v : C.T) : Prop :=
  ∃ text v', C.toText v = some text ∧ C.ofText text = some v' ∧ C.eq v' v = true

/-! ### The loops, for a type that is converted in any way -/

section loops
variable {Y : Yaml} {E : CastType}

theorem isSome_of_mapM {α β : Type} {f : α → Option β} {l : List α} {l' : List β}
    (h : l.mapM f = some l') : ∀ a ∈ l, (f a).isSome := by
  induction l generalizing l' with
  | nil => exact fun a ha => absurd ha List.not_mem_nil
  | cons a l ih =>
    simp only [List.mapM_cons, Option.pure_def, Option.bind_eq_bind, Option.bind_eq_some_iff] at h
    obtain ⟨b, hb, rest, hrest, _⟩ := h
    exact List.forall_mem_cons.mpr ⟨by rw [hb]; rfl, ih hrest⟩

/-- The tree of a value is what its text is read as. -/
def CastType.Read (Y : Yaml) (E : CastType) : Prop :=
  ∀ a n, E.push Y a = some n → E.tree a = n

theorem CastType.Read.push (hE : E.Read Y) {a : E.T} (h : (E.push Y a).isSome) :
    E.push Y a = some (E.tree a) := by
  obtain ⟨n, hn⟩ := Option.isSome_iff_exists.mp h
  rw [hE a n hn, hn]

/-- There is a text if that of every element can be read. -/
theorem elementsToText_iff (hE : E.Read Y) {l : List E.T} {text : String} :
    elementsToText Y E l = some text ↔
      (∀ a ∈ l, (E.push Y a).isSome) ∧ text = Y.emit (.sequence (l.map E.tree)) := by
  have heq (hall : ∀ a ∈ l, (E.push Y a).isSome) :
      elementsToText Y E l = some (Y.emit (.sequence (l.map E.tree))) := by
    unfold elementsToText
    rw [mapM_of_forall fun a ha => hE.push (hall a ha)]
    rfl
  constructor
  · intro h
    obtain ⟨items, hitems, _⟩ := Option.map_eq_some_iff.mp h
    have hall := isSome_of_mapM hitems
    rw [heq hall, Option.some.injEq] at h
    exact ⟨hall, h.symm⟩
  · intro ⟨hall, htext⟩
    rw [heq hall, htext]

theorem elementsOfText_map {g : E.T → E.T} (hpull : ∀ a, E.pull Y (E.tree a) = some (g a))
    {l : List E.T} (h : Written Y (.sequence (l.map E.tree))) :
    elementsOfText Y E (Y.emit (.sequence (l.map E.tree))) = some (l.map g) := by
  unfold elementsOfText
  rw [h.load]
  show (l.map E.tree).mapM (E.pull Y) = some (l.map g)
  rw [List.mapM_map]
  exact mapM_of_forall fun a _ => hpull a

theorem pairsToText_iff (hE : E.Read Y) {l : List (String × E.T)} {text : String} :
    pairsToText Y E l = some text ↔
      (∀ p ∈ l, (E.push Y p.2).isSome) ∧
        text = Y.emit (.map (l.map fun p => (p.1, E.tree p.2))) := by
  have heq (hall : ∀ p ∈ l, (E.push Y p.2).isSome) :
      pairsToText Y E l = some (Y.emit (.map (l.map fun p => (p.1, E.tree p.2)))) := by
    have hpush : ∀ p ∈ l, E.pushPair Y p = some (p.1, E.tree p.2) := by
      intro p hp
      unfold CastType.pushPair
      rw [hE.push (hall p hp)]
      rfl
    unfold pairsToText
    rw [mapM_of_forall hpush]
    rfl
  constructor
  · intro h
    obtain ⟨pairs, hpairs, _⟩ := Option.map_eq_some_iff.mp h
    have hall : ∀ p ∈ l, (E.push Y p.2).isSome := by
      intro p hp
      have hsome := isSome_of_mapM hpairs p hp
      unfold CastType.pushPair at hsome
      rwa [Option.isSome_map] at hsome
    rw [heq hall, Option.some.injEq] at h
    exact ⟨hall, h.symm⟩
  · intro ⟨hall, htext⟩
    rw [heq hall, htext]

theorem pairsOfText_map {g : E.T → E.T} (hpull : ∀ a, E.pull Y (E.tree a) = some (g a))
    {l : List (String × E.T)} (h : Written Y (.map (l.map fun p => (p.1, E.tree p.2)))) :
    pairsOfText Y E (Y.emit (.map (l.map fun p => (p.1, E.tree p.2)))) =
      some (l.map fun p => (p.1, g p.2)) := by
  unfold pairsOfText
  rw [h.load]
  show (l.map fun p => (p.1, E.tree p.2)).mapM (E.pullPair Y) = some (l.map fun p => (p.1, g p.2))
  rw [List.mapM_map]
  apply mapM_of_forall
  intro p _
  show (E.pull Y (E.tree p.2)).map (p.1, ·) = some (p.1, g p.2)
  rw [hpull]
  rfl

/-- What is written and what is read, put together. -/
theorem roundTrips_iff {C : CastType} {v w : C.T} {P : Prop} {text : String}
    (htoText : ∀ t, C.toText v = some t ↔ P ∧ t = text) (hofText : C.ofText text = some w) :
    C.RoundTrips v ↔ P ∧ C.eq w v = true := by
  constructor
  · intro ⟨t, w', ht, hw', heq⟩
    obtain ⟨hP, rfl⟩ := (htoText t).mp ht
    rw [hofText, Option.some.injEq] at hw'
    exact ⟨hP, hw' ▸ heq⟩
  · intro ⟨hP, heq⟩
    exact ⟨text, w, (htoText text).mpr ⟨hP, rfl⟩, hofText, heq⟩

end loops

/-! ### Strings -/

section strings
variable {Y : Yaml}

theorem normal_iff {s : String} : Normal Y s ↔ (Y.load s).isSome ∧ rewritten Y s = s := by
  unfold Normal rewritten
  show _ ↔ _ ∧ Y.emit ((Y.load s).getD .null) = s
  cases Y.load s with
  | none => simp
  | some n => simp

theorem string_read : (string Y).Read Y := by
  intro s n h
  have hload : Y.load s = some n := h
  show (Y.load s).getD .null = n
  rw [hload]
  rfl

theorem string_pull (s : String) :
    (string Y).pull Y ((string Y).tree s) = some (rewritten Y s) := rfl

theorem map_eq_self_iff {α : Type} {f : α → α} {l : List α} : l.map f = l ↔
    ∀ a ∈ l, f a = a := by
  induction l with
  | nil => simp
  | cons a l ih => simp [ih]

/-- Writing a string anew does nothing to it a second time. -/
theorem rewritten_rewritten {s : String} (h : Written Y ((string Y).tree s)) :
    rewritten Y (rewritten Y s) = rewritten Y s := by
  show Y.emit ((Y.load (Y.emit ((string Y).tree s))).getD .null) = _
  rw [h.load]
  rfl

theorem forall_normal_iff {l : List String} :
    (∀ s ∈ l, Normal Y s) ↔ (∀ s ∈ l, (Y.load s).isSome) ∧ l.map (rewritten Y) = l := by
  rw [map_eq_self_iff, ← forall₂_and]
  exact forall₂_congr fun _ _ => normal_iff

theorem sequence_roundTrips_iff {v : List String}
    (h : Written Y (.sequence (v.map (string Y).tree))) :
    (sequence Y (string Y).toCastType).RoundTrips v ↔ ∀ s ∈ v, Normal Y s := by
  have hparts : (sequence Y (string Y).toCastType).RoundTrips v ↔
      (∀ s ∈ v, (Y.load s).isSome) ∧
        pairwiseEq (string Y).eq (v.map (rewritten Y)) v = true :=
    roundTrips_iff (fun _ => elementsToText_iff string_read) (elementsOfText_map string_pull h)
  have heq : pairwiseEq (string Y).eq (v.map (rewritten Y)) v = true ↔ v.map (rewritten Y) = v :=
    pairwiseEq_iff (string Y).eq_iff _ _
  exact (hparts.trans (and_congr_right' heq)).trans forall_normal_iff.symm

/-- The strings of a set that comes back are those it is read as, so that each of them has
    been written anew already. -/
theorem set_roundTrips_iff {v : Ordered (id : String → String)}
    (h : Written Y (.sequence (v.entries.map (string Y).tree))) :
    (set Y (string Y)).RoundTrips v ↔ ∀ s ∈ v.entries, Normal Y s := by
  let read : Ordered (id : String → String) :=
    (v.entries.map (rewritten Y)).foldl Ordered.insert Ordered.empty
  have hparts : (set Y (string Y)).RoundTrips v ↔
      (∀ s ∈ v.entries, (Y.load s).isSome) ∧
        pairwiseEq (string Y).eq read.entries v.entries = true :=
    roundTrips_iff (C := set Y (string Y)) (w := read) (fun _ => elementsToText_iff string_read)
      (congrArg (Option.map _) (elementsOfText_map string_pull h))
  have heq : pairwiseEq (string Y).eq read.entries v.entries = true ↔ read.entries = v.entries :=
    pairwiseEq_iff (string Y).eq_iff _ _
  rw [hparts.trans (and_congr_right' heq), forall_normal_iff]
  apply and_congr_right'
  constructor
  · -- the order of the elements may have changed, so look at one element at a time
    intro hread
    rw [map_eq_self_iff]
    intro s hs
    rw [← hread] at hs
    rcases Ordered.mem_of_foldl_insert hs with hs | hs
    · cases hs
    · obtain ⟨t, ht, rfl⟩ := List.mem_map.mp hs
      exact rewritten_rewritten (h.item (List.mem_map_of_mem ht))
  · intro hmap
    show ((v.entries.map (rewritten Y)).foldl Ordered.insert Ordered.empty).entries = v.entries
    rw [hmap]
    exact foldl_insert_empty v.sorted

theorem map_roundTrips_iff {v : Ordered (Prod.fst : String × String → String)}
    (h : Written Y (.map (v.entries.map fun p => (p.1, (string Y).tree p.2)))) :
    (map Y (string Y).toCastType).RoundTrips v ↔
      ∀ s ∈ v.entries.map Prod.snd, Normal Y s := by
  let pairs : List (String × String) := v.entries.map fun p => (p.1, rewritten Y p.2)
  -- the keys are not written anew, so the pairs are read back in their order
  have hsorted : pairs.Pairwise fun p q => p.1 < q.1 := by
    rw [List.pairwise_map]
    exact v.sorted
  obtain ⟨read, hread, hentries⟩ : ∃ m : Ordered (Prod.fst : String × String → String),
      pairs.foldl Ordered.insert Ordered.empty = m ∧ m.entries = pairs :=
    ⟨_, rfl, foldl_insert_empty hsorted⟩
  have hparts : (map Y (string Y).toCastType).RoundTrips v ↔
      (∀ p ∈ v.entries, (Y.load p.2).isSome) ∧
        pairwiseEq (string Y).eqPair read.entries v.entries = true :=
    roundTrips_iff (C := map Y (string Y).toCastType) (w := read)
      (fun _ => pairsToText_iff string_read)
      ((congrArg (Option.map _) (pairsOfText_map string_pull h)).trans (congrArg some hread))
  have heq : pairwiseEq (string Y).eqPair read.entries v.entries = true ↔
      read.entries = v.entries :=
    pairwiseEq_iff (string Y).eqPair_iff _ _
  rw [hparts.trans (and_congr_right' heq), hentries, List.forall_mem_map]
  -- with the same keys, equal pairs are equal values
  have hpairs : pairs = v.entries ↔ ∀ p ∈ v.entries, rewritten Y p.2 = p.2 := by
    rw [map_eq_self_iff]
    exact forall₂_congr fun p _ => ⟨congrArg Prod.snd, fun heq => by rw [heq]⟩
  rw [hpairs, ← forall₂_and]
  exact forall₂_congr fun p _ => normal_iff.symm

end strings

/-! ### The round trip -/

/-- A vector, list or set of strings, or a map to strings, is equal to what its text is
    read as if and only if all the strings are normal, where `Load` undoes the emitter on
    the nodes that are written. -/
theorem strings_roundTrip_iff {Y : Yaml} (k : Strings) (v : (k.type Y).T)
    (hload : Written Y ((k.type Y).tree v)) :
    (k.type Y).RoundTrips v ↔ ∀ s ∈ k.elements Y v, Normal Y s := by
  cases k with
  | vector => exact sequence_roundTrips_iff hload
  | list => exact sequence_roundTrips_iff hload
  | set => exact set_roundTrips_iff hload
  | map => exact map_roundTrips_iff hload

/-- The text form of a sequence of one node. -/
def oneItem (n : Node) (text : String) : Yaml :=
  { load := fun t =>
      if t = "- " ++ text then some (.sequence [n])
      else if t = "" ∨ t = "~" then some .null
      else some (.scalar t)
    emit := fun
      | .null => "~"
      | .scalar t => t
      | _ => "- " ++ text }

theorem oneItem_written {n : Node} {text : String} (hleaf : ∀ m, m.Within n → m = n)
    (hload : (oneItem n text).load ((oneItem n text).emit n) = some n)
    (hseq : (oneItem n text).load ((oneItem n text).emit (.sequence [n])) = some (.sequence [n])) :
    Written (oneItem n text) (.sequence [n]) := by
  intro m hm
  cases hm with
  | root => exact hseq
  | item hn hm =>
    rw [List.mem_singleton.mp hn] at hm
    rw [hleaf m hm]
    exact hload

/-- A plain word comes back. -/
theorem strings_roundTrip_iff_word :
    (Strings.vector.type (oneItem (.scalar "a") "a")).RoundTrips ["a"] := by
  have hwritten : Written (oneItem (.scalar "a") "a") (.sequence [.scalar "a"]) :=
    oneItem_written (fun m hm => by cases hm; rfl) rfl rfl
  apply (strings_roundTrip_iff .vector ["a"] hwritten).mpr
  intro s hs
  rw [List.mem_singleton.mp hs]
  decide

/-- The empty string comes back as "~". -/
theorem not_strings_roundTrip : ¬ ∀ (Y : Yaml) (k : Strings) (v : (k.type Y).T),
    Y.load "" = some .null → Y.emit .null = "~" → Written Y ((k.type Y).tree v) →
    (k.type Y).RoundTrips v := by
  intro h
  have hwritten : Written (oneItem .null "~") (.sequence [.null]) :=
    oneItem_written (fun m hm => by cases hm; rfl) rfl rfl
  have htrip := h (oneItem .null "~") .vector [""] rfl rfl hwritten
  have hnormal := (sequence_roundTrips_iff hwritten).mp htrip "" List.mem_cons_self
  exact absurd hnormal (by decide)

end Gwn.Config
