import Mathlib.Data.List.Infix
import StackLang.Names.Scope
import StackLang.Proofs.NameLookup

namespace StackLang

namespace Scope

/-- The scope after some operations. -/
def after (s : Scope) (ops : List Op) : Scope :=
  ops.foldl (fun s op => (s.perform op).2) s

/-- The index of the innermost namespace. -/
def level (s : Scope) : Nat :=
  s.outer.length

namespace Op

/-- The index of the innermost namespace after an operation, from what it was before. The namespace
with the index 0 is not popped. -/
def level (before : Nat) : Op → Nat
  | push => before + 1
  | pop => before - 1
  | define _ _ => before
  | lookup _ => before

def levelAfter (start : Nat) (ops : List Op) : Nat :=
  ops.foldl level start

/-- Done at a level, the operation neither pops the namespace with the index nor defines the name in
it. -/
def Keeps (index : Nat) (name : Bytes) (level : Nat) (op : Op) : Prop :=
  index ≤ op.level level ∧ ∀ e, op = .define name e → index ≠ level

variable {index level : Nat} {name other : Bytes} {e : Element}

@[simp] theorem keeps_push : Keeps index name level push ↔ index ≤ level + 1 := by
  simp [Keeps, Op.level]

@[simp] theorem keeps_pop : Keeps index name level pop ↔ index ≤ level - 1 := by
  simp [Keeps, Op.level]

@[simp] theorem keeps_define :
    Keeps index name level (define other e) ↔ index ≤ level ∧ (other = name → index ≠ level) := by
  simp [Keeps, Op.level]

@[simp] theorem keeps_lookup : Keeps index name level (lookup other) ↔ index ≤ level := by
  simp [Keeps, Op.level]

/-- All of the operations keep the name in the namespace with the index, the first being done at a
level. -/
def KeepAll (index : Nat) (name : Bytes) : Nat → List Op → Prop
  | _, [] => True
  | level, op :: rest => op.Keeps index name level ∧ KeepAll index name (op.level level) rest

end Op

/-- What the namespace with an index binds a name to. Namespaces are given from the inside out, and
the outermost one has the index 0. -/
def boundIn (layers : List Namespace) (index : Nat) (name : Bytes) : Option Element :=
  layers.reverse[index]?.bind (·.get? name)

/-- After the operations the namespace with the index binds the name to the element: the latest
operation that defined the name there did, or the namespace did from the start. -/
inductive Binds (s : Scope) (ops : List Op) (index : Nat) (name : Bytes) (e : Element) : Prop
  | start : boundIn s.layers index name = some e → Op.KeepAll index name s.level ops →
      Binds s ops index name e
  | defined (before later : List Op) : ops = before ++ .define name e :: later →
      Op.levelAfter s.level before = index → Op.KeepAll index name index later →
      Binds s ops index name e

theorem boundIn_eq_none {layers : List Namespace} {index : Nat} (outside : layers.length ≤ index)
    (name : Bytes) :
    boundIn layers index name = none := by
  have nothing : layers.reverse[index]? = none :=
    List.getElem?_eq_none (by rw [List.length_reverse]; exact outside)
  rw [boundIn, nothing, Option.bind_none]

theorem lt_of_boundIn {layers : List Namespace} {index : Nat} {name : Bytes} {e : Element}
    (h : boundIn layers index name = some e) : index < layers.length := by
  by_contra outside
  rw [boundIn_eq_none (by omega)] at h
  cases h

theorem boundIn_cons (layer : Namespace) (outer : List Namespace) (index : Nat) (name : Bytes) :
    boundIn (layer :: outer) index name =
      if index = outer.length then layer.get? name else boundIn outer index name := by
  by_cases same : index = outer.length
  · have own : (layer :: outer).reverse[index]? = some layer := by
      rw [List.reverse_cons, List.getElem?_append_right (by rw [List.length_reverse]; omega)]
      simp [same]
    rw [if_pos same, boundIn, own, Option.bind_some]
  · rw [if_neg same]
    by_cases inside : index < outer.length
    · rw [boundIn, List.reverse_cons,
        List.getElem?_append_left (by rw [List.length_reverse]; exact inside), boundIn]
    · rw [boundIn_eq_none (by rw [List.length_cons]; omega), boundIn_eq_none (by omega)]

theorem boundIn_cons_of_absent {layer : Namespace} {name : Bytes} (absent : layer.get? name = none)
    (outer : List Namespace) (index : Nat) :
    boundIn (layer :: outer) index name = boundIn outer index name := by
  rw [boundIn_cons]
  split
  next same => rw [absent, boundIn_eq_none (by omega)]
  next => rfl

/-- The innermost namespace that has the name decides. -/
theorem find_eq_some_iff {layers : List Namespace} {name : Bytes} {e : Element} {index : Nat} :
    find name layers = some (e, index) ↔
      boundIn layers index name = some e ∧ ∀ i, index < i → boundIn layers i name = none := by
  induction layers with
  | nil => simp [find, boundIn]
  | cons layer outer ih =>
    unfold find
    cases own : layer.get? name with
    | none =>
      simp only [boundIn_cons_of_absent own]
      exact ih
    | some first =>
      have innermost : boundIn (layer :: outer) outer.length name = some first := by
        rw [boundIn_cons, if_pos rfl, own]
      simp only [Option.some.injEq, Prod.mk.injEq]
      constructor
      · rintro ⟨rfl, rfl⟩
        refine ⟨innermost, fun i above => ?_⟩
        exact boundIn_eq_none (by rw [List.length_cons]; omega) name
      · rintro ⟨bound, above⟩
        have inside := lt_of_boundIn bound
        rw [List.length_cons] at inside
        have same : outer.length = index := by
          by_contra other
          rw [above outer.length (by omega)] at innermost
          cases innermost
        rw [same, bound] at innermost
        exact ⟨(Option.some.inj innermost).symm, same⟩

theorem find_eq_none_iff {layers : List Namespace} {name : Bytes} :
    find name layers = none ↔ ∀ i, boundIn layers i name = none := by
  induction layers with
  | nil => simp [find, boundIn]
  | cons layer outer ih =>
    unfold find
    cases own : layer.get? name with
    | none =>
      simp only [boundIn_cons_of_absent own]
      exact ih
    | some first =>
      simp only [reduceCtorEq, false_iff, not_forall]
      exact ⟨outer.length, by rw [boundIn_cons, if_pos rfl, own]; simp⟩

variable {s : Scope} {ops : List Op} {index : Nat} {name : Bytes} {e : Element}

theorem length_layers (s : Scope) : s.layers.length = s.level + 1 :=
  List.length_cons

theorem perform_lookup_of_some (h : s.lookup name = some (e, index)) :
    s.perform (.lookup name) = (.element e index true, s) := by
  simp only [perform, h]

theorem perform_lookup_of_none (h : s.lookup name = none) :
    s.perform (.lookup name) = (.element .unset (-1) false, s) := by
  simp only [perform, h]

theorem perform_lookup_found_iff :
    s.perform (.lookup name) = (.element e index true, s) ↔ s.lookup name = some (e, index) := by
  constructor
  · intro h
    cases found : s.lookup name with
    | none => simp [perform_lookup_of_none found] at h
    | some own =>
      rw [perform_lookup_of_some found] at h
      simp only [Prod.mk.injEq, Answer.element.injEq, Int.natCast_inj, and_true] at h
      rw [← h.1, ← h.2]
  · exact perform_lookup_of_some

theorem perform_lookup_missing_iff :
    s.perform (.lookup name) = (.element .unset (-1) false, s) ↔ s.lookup name = none := by
  constructor
  · intro h
    cases found : s.lookup name with
    | none => rfl
    | some own => simp [perform_lookup_of_some found] at h
  · exact perform_lookup_of_none

theorem perform_lookup (s : Scope) (name : Bytes) : (s.perform (.lookup name)).2 = s := by
  cases h : s.lookup name with
  | none => rw [perform_lookup_of_none h]
  | some found => rw [perform_lookup_of_some h]

theorem level_perform (s : Scope) (op : Op) : (s.perform op).2.level = op.level s.level := by
  cases op with
  | push => exact s.length_layers
  | pop =>
    obtain ⟨top, outer⟩ := s
    cases outer <;> rfl
  | define name e => rfl
  | lookup name => rw [perform_lookup, Op.level]

theorem le_level_of_boundIn (h : boundIn s.layers index name = some e) : index ≤ s.level := by
  have lt := lt_of_boundIn h
  rw [length_layers] at lt
  omega

theorem boundIn_define (s : Scope) (other : Bytes) (value : Element) (index : Nat) (name : Bytes) :
    boundIn (s.define other value).layers index name =
      if index = s.level ∧ name = other then some value else boundIn s.layers index name := by
  have before := boundIn_cons s.top s.outer index name
  have now := boundIn_cons (s.top.insert other value) s.outer index name
  by_cases own : index = s.outer.length
  · rw [if_pos own] at before now
    by_cases same : name = other
    · rw [if_pos ⟨own, same⟩]
      exact now.trans (by rw [NameMap.get?_insert, if_pos same])
    · rw [if_neg fun both => same both.2]
      exact now.trans (by rw [NameMap.get?_insert, if_neg same]; exact before.symm)
  · rw [if_neg own] at before now
    rw [if_neg fun both => own both.1]
    exact now.trans before.symm

/-- A pop takes the innermost namespace away if it is not the last one, and the others stand where
they stood. -/
theorem boundIn_pop : boundIn (s.perform .pop).2.layers index name = some e ↔
    boundIn s.layers index name = some e ∧ index ≤ s.level - 1 := by
  obtain ⟨top, outer⟩ := s
  cases outer with
  | nil => exact ⟨fun bound => ⟨bound, le_level_of_boundIn bound⟩, And.left⟩
  | cons next outer =>
    have level : level ⟨top, next :: outer⟩ - 1 = outer.length := rfl
    have all := boundIn_cons top (next :: outer) index name
    rw [List.length_cons] at all
    show boundIn (next :: outer) index name = some e ↔
      boundIn (top :: next :: outer) index name = some e ∧ _
    rw [level]
    constructor
    · intro bound
      have lt := lt_of_boundIn bound
      rw [List.length_cons] at lt
      rw [all, if_neg (by omega)]
      exact ⟨bound, by omega⟩
    · rintro ⟨bound, le⟩
      rwa [all, if_neg (by omega)] at bound

/-- What an operation can do to a binding: make it, or keep it. -/
theorem boundIn_perform (op : Op) :
    boundIn (s.perform op).2.layers index name = some e ↔
      (op = .define name e ∧ s.level = index) ∨
      (boundIn s.layers index name = some e ∧ op.Keeps index name s.level) := by
  have inside : boundIn s.layers index name = some e → index ≤ s.level := le_level_of_boundIn
  cases op with
  | push =>
    have added : boundIn s.push.layers index name = boundIn s.layers index name :=
      boundIn_cons_of_absent rfl s.layers index
    simp only [perform, added, Op.keeps_push, reduceCtorEq, false_and, false_or]
    exact ⟨fun bound => ⟨bound, Nat.le_succ_of_le (inside bound)⟩, And.left⟩
  | pop => simp only [boundIn_pop, Op.keeps_pop, reduceCtorEq, false_and, false_or]
  | define other value =>
    simp only [perform, boundIn_define, Op.keeps_define, Op.define.injEq]
    by_cases here : index = s.level ∧ name = other
    · obtain ⟨rfl, rfl⟩ := here
      simp
    · rw [if_neg here]
      constructor
      · intro bound
        exact .inr ⟨bound, inside bound, fun same own => here ⟨own, same.symm⟩⟩
      · rintro (⟨⟨same, -⟩, own⟩ | ⟨bound, -⟩)
        · exact absurd ⟨own.symm, same.symm⟩ here
        · exact bound
  | lookup other =>
    simp only [perform_lookup, Op.keeps_lookup, reduceCtorEq, false_and, false_or]
    exact ⟨fun bound => ⟨bound, inside bound⟩, And.left⟩

/-- The bindings after a history that starts with an operation are those after the rest of it, from
the scope that the operation leaves. -/
theorem binds_cons {op : Op} :
    s.Binds (op :: ops) index name e ↔ (s.perform op).2.Binds ops index name e := by
  constructor
  · intro h
    cases h with
    | start bound keeps =>
      refine .start ((boundIn_perform op).mpr (.inr ⟨bound, keeps.1⟩)) ?_
      rw [level_perform]
      exact keeps.2
    | defined before later split level keeps =>
      cases before with
      | nil =>
        obtain ⟨rfl, rfl⟩ := List.cons.inj split
        refine .start ((boundIn_perform _).mpr (.inl ⟨rfl, level⟩)) ?_
        rw [level_perform, show s.level = index from level]
        exact keeps
      | cons first before =>
        obtain ⟨rfl, rfl⟩ := List.cons.inj split
        refine .defined before later rfl ?_ keeps
        rw [level_perform]
        exact level
  · intro h
    cases h with
    | start bound keeps =>
      rw [level_perform] at keeps
      rcases (boundIn_perform op).mp bound with ⟨rfl, rfl⟩ | ⟨old, kept⟩
      · exact .defined [] ops rfl rfl keeps
      · exact .start old ⟨kept, keeps⟩
    | defined before later split level keeps =>
      rw [level_perform] at level
      exact .defined (op :: before) later (by rw [split]; rfl) level keeps

/-- A namespace holds just what the history says. -/
theorem boundIn_after :
    boundIn (s.after ops).layers index name = some e ↔ s.Binds ops index name e := by
  induction ops generalizing s with
  | nil =>
    constructor
    · intro bound
      exact .start bound trivial
    · intro h
      cases h with
      | start bound _ => exact bound
      | defined before later split => simp at split
  | cons op rest ih => rw [binds_cons, ← ih]; rfl

theorem level_after (s : Scope) (ops : List Op) :
    (s.after ops).level = Op.levelAfter s.level ops := by
  induction ops generalizing s with
  | nil => rfl
  | cons op rest ih =>
    have next := ih (s.perform op).2
    rw [level_perform] at next
    exact next

theorem lookup_after_eq_some_iff : (s.after ops).lookup name = some (e, index) ↔
    s.Binds ops index name e ∧ ∀ i, index < i → ∀ e', ¬ s.Binds ops i name e' := by
  rw [lookup, find_eq_some_iff]
  simp only [← boundIn_after, Option.eq_none_iff_forall_ne_some, ne_eq]

theorem lookup_after_eq_none_iff :
    (s.after ops).lookup name = none ↔ ∀ i e, ¬ s.Binds ops i name e := by
  rw [lookup, find_eq_none_iff]
  simp only [← boundIn_after, Option.eq_none_iff_forall_ne_some, ne_eq]

theorem after_append (s : Scope) (a b : List Op) : s.after (a ++ b) = (s.after a).after b :=
  List.foldl_append

theorem eq_of_layers {a b : Scope} (h : a.layers = b.layers) : a = b := by
  cases a
  cases b
  obtain ⟨rfl, rfl⟩ := List.cons.inj h
  rfl

variable {own below : List Namespace}

/-- An operation on the innermost namespaces leaves those below as they are, if it does not pop the
last of the innermost ones. -/
theorem layers_perform (layers : s.layers = own ++ below) {op : Op} (nonempty : own ≠ [])
    (covered : [op].count .pop < own.length + [op].count .push) :
    ∃ own', (s.perform op).2.layers = own' ++ below ∧
      own'.length + [op].count .pop = own.length + [op].count .push := by
  obtain ⟨top, outer⟩ := s
  obtain ⟨first, more, rfl⟩ := List.exists_cons_of_ne_nil nonempty
  obtain ⟨rfl, rfl⟩ := List.cons.inj layers
  cases op with
  | push => exact ⟨∅ :: top :: more, rfl, rfl⟩
  | pop =>
    cases more with
    | nil => simp at covered
    | cons next more => exact ⟨next :: more, rfl, rfl⟩
  | define name e => exact ⟨top.insert name e :: more, rfl, rfl⟩
  | lookup name => exact ⟨top :: more, by rw [perform_lookup]; rfl, rfl⟩

theorem layers_after (layers : s.layers = own ++ below)
    (covered : ∀ part, part <+: ops → part.count .pop < own.length + part.count .push) :
    ∃ own', (s.after ops).layers = own' ++ below ∧
      own'.length + ops.count .pop = own.length + ops.count .push := by
  induction ops generalizing s own with
  | nil => exact ⟨own, layers, rfl⟩
  | cons op rest ih =>
    have nonempty : own ≠ [] := by
      have start := covered [] List.nil_prefix
      exact List.ne_nil_of_length_pos start
    have first := covered [op] (List.prefix_append [op] rest)
    obtain ⟨own', reached, length⟩ := layers_perform layers nonempty first
    have others : ∀ part, part <+: rest → part.count .pop < own'.length + part.count .push := by
      intro part isPrefix
      have whole := covered (op :: part) (List.cons_prefix_cons.mpr ⟨rfl, isPrefix⟩)
      rw [← List.singleton_append, List.count_append, List.count_append] at whole
      omega
    obtain ⟨own'', stands, length'⟩ := ih reached others
    refine ⟨own'', stands, ?_⟩
    rw [← List.singleton_append, List.count_append, List.count_append]
    omega

/-- Each pop takes away a namespace that was pushed by an earlier one of the operations, and no
other such namespace is left. -/
structure Op.Balanced (ops : List Op) : Prop where
  covered : ∀ part, part <+: ops → part.count .pop ≤ part.count .push
  even : ops.count .pop = ops.count .push

instance : DecidablePred Op.Balanced := fun ops =>
  decidable_of_iff ((∀ part ∈ ops.inits, part.count .pop ≤ part.count .push) ∧
    ops.count .pop = ops.count .push)
    ⟨fun h => ⟨fun part isPrefix => h.1 part ((List.mem_inits part ops).mpr isPrefix), h.2⟩,
      fun h => ⟨fun part mem => h.covered part ((List.mem_inits part ops).mp mem), h.even⟩⟩

/-- While a pushed namespace is there, those below it stay as they are. -/
theorem layers_after_push {inner : List Op} (balanced : Op.Balanced inner) {part : List Op}
    (isPrefix : part <+: inner) :
    ∃ own, (s.after (.push :: part)).layers = own ++ s.layers ∧
      own.length + part.count .pop = 1 + part.count .push := by
  have layers : (s.perform .push).2.layers = [∅] ++ s.layers := rfl
  apply layers_after layers
  intro early isEarly
  have covered := balanced.covered early (isEarly.trans isPrefix)
  rw [List.length_singleton]
  omega

theorem after_segment {inner : List Op} (balanced : Op.Balanced inner) (s : Scope) :
    s.after (.push :: (inner ++ [.pop])) = s := by
  obtain ⟨own, layers, length⟩ := layers_after_push balanced (List.prefix_refl inner)
  have even := balanced.even
  obtain ⟨ns, rfl⟩ := List.length_eq_one_iff.mp (by omega : own.length = 1)
  rw [← List.cons_append, after_append]
  apply eq_of_layers
  generalize s.after (.push :: inner) = pushed at layers
  obtain ⟨top, outer⟩ := pushed
  obtain ⟨rfl, rfl⟩ := List.cons.inj layers
  rfl

/-- What a scope holds and answers after a history of operations. -/
structure Follows (s : Scope) (ops : List Op) (now : Scope) : Prop where
  size : now.size = Op.levelAfter s.level ops + 1
  popLast : now.size = 1 → now.perform .pop = (.lastNamespace, now)
  popInner : now.size ≠ 1 → ∃ rest, now.perform .pop = (.popped now.top, rest) ∧
    rest.layers = now.outer
  contents : ∀ index name e, boundIn now.layers index name = some e ↔ s.Binds ops index name e
  found : ∀ name e (index : Nat), now.perform (.lookup name) = (.element e index true, now) ↔
    s.Binds ops index name e ∧ ∀ i, index < i → ∀ e', ¬ s.Binds ops i name e'
  missing : ∀ name, now.perform (.lookup name) = (.element .unset (-1) false, now) ↔
    ∀ index e, ¬ s.Binds ops index name e

theorem follows_after (s : Scope) (ops : List Op) : s.Follows ops (s.after ops) where
  size := by rw [size, length_layers, level_after]
  popLast := by
    intro last
    generalize s.after ops = now at last
    obtain ⟨top, outer⟩ := now
    obtain rfl : outer = [] := List.length_eq_zero_iff.mp (Nat.succ.inj last)
    rfl
  popInner := by
    intro inner
    generalize s.after ops = now at inner
    obtain ⟨top, outer⟩ := now
    cases outer with
    | nil => exact absurd rfl inner
    | cons next outer => exact ⟨⟨next, outer⟩, rfl, rfl⟩
  contents := fun _ _ _ => boundIn_after
  found := fun _ _ _ => perform_lookup_found_iff.trans lookup_after_eq_some_iff
  missing := fun _ => perform_lookup_missing_iff.trans lookup_after_eq_none_iff

/-- Scopes are stacks of namespaces. After any operations a scope holds in each of its namespaces
what was defined there last, a lookup answers from the innermost namespace that has the name, and
the last namespace cannot be popped. What happens between a push and its pop leaves the namespaces
below as they are, and all is then as before. -/
theorem scope_follows_history (s : Scope) (ops : List Op) :
    s.Follows ops (s.after ops) ∧
    ∀ inner, Op.Balanced inner →
      (∀ part, part <+: inner → ∃ own, own ≠ [] ∧
        (s.after (ops ++ .push :: part)).layers = own ++ (s.after ops).layers) ∧
      ∀ later, s.after (ops ++ .push :: (inner ++ .pop :: later)) = s.after (ops ++ later) := by
  refine ⟨follows_after s ops, fun inner balanced => ⟨fun part isPrefix => ?_, fun later => ?_⟩⟩
  · obtain ⟨own, layers, length⟩ := layers_after_push balanced isPrefix
    have covered := balanced.covered part isPrefix
    refine ⟨own, ?_, by rw [after_append, layers]⟩
    exact List.ne_nil_of_length_pos (by omega)
  · have segment : ops ++ .push :: (inner ++ .pop :: later) = ops ++ (.push :: (inner ++ [.pop])) ++
        later := by simp
    rw [segment, after_append, after_append, after_segment balanced, after_append]

def builtinScope : Scope :=
  withBuiltins [bytes "a", bytes "b"]

def shadowingOps : List Op :=
  [.push, .define (bytes "a") .placeholder, .define (bytes "a") .variable]

/-- Shadows both names again, and one of them in a namespace that is popped first. -/
def shadowingSegment : List Op :=
  [.define (bytes "b") .placeholder, .push, .define (bytes "a") .unset, .pop, .lookup (bytes "b")]

theorem builtinScope_follows_history :
    Op.Balanced shadowingSegment ∧
    builtinScope.after (shadowingOps ++ .push :: (shadowingSegment ++ [.pop])) =
      builtinScope.after shadowingOps ∧
    builtinScope.Binds shadowingOps 1 (bytes "a") .variable ∧
    builtinScope.Binds shadowingOps 0 (bytes "b") .builtin ∧
    ∀ index e, ¬ builtinScope.Binds shadowingOps index (bytes "c") e := by
  have balanced : Op.Balanced shadowingSegment := by decide
  obtain ⟨follows, segments⟩ := scope_follows_history builtinScope shadowingOps
  refine ⟨balanced, (segments shadowingSegment balanced).2 [], ?_, ?_, ?_⟩
  · exact ((follows.found (bytes "a") .variable 1).mp (by rfl)).1
  · exact ((follows.found (bytes "b") .builtin 0).mp (by rfl)).1
  · exact (follows.missing (bytes "c")).mp (by rfl)

end Scope

end StackLang
