import StackLang.Failure
import StackLang.Files
import StackLang.Proofs.NameLookup

namespace StackLang

theorem slash_not_mem_of_mem_pathNames {path name : Bytes} (h : name ∈ pathNames path) :
    Ascii.slash ∉ name := by
  unfold pathNames at h
  induction path generalizing name with
  | nil =>
    rw [List.splitOn_nil, List.mem_singleton] at h
    rw [h]
    exact List.not_mem_nil
  | cons c rest ih =>
    rw [List.splitOn_cons_eq_if_modifyHead] at h
    split at h
    next =>
      rcases List.mem_cons.mp h with rfl | h
      · exact List.not_mem_nil
      · exact ih h
    next other =>
      cases parts : rest.splitOn Ascii.slash with
      | nil => exact absurd parts (List.splitOn_ne_nil _ _)
      | cons first more =>
        rw [parts, List.modifyHead_cons] at h
        rcases List.mem_cons.mp h with rfl | h
        · have free : Ascii.slash ∉ first := ih (parts ▸ List.mem_cons_self)
          have differs : c ≠ Ascii.slash := by simpa using other
          exact List.not_mem_cons_of_ne_of_not_mem differs.symm free
        · exact ih (parts ▸ List.mem_cons_of_mem _ h)

/-- A name that stands between slashes. -/
structure IsStep (name : Bytes) : Prop where
  nonempty : name ≠ []
  unbroken : Ascii.slash ∉ name

theorem exists_head_join {steps : List Bytes} (h : ∀ n ∈ steps, IsStep n) (filled : steps ≠ []) :
    ∃ c text, Bytes.join [Ascii.slash] steps = c :: text ∧ c ≠ Ascii.slash := by
  cases steps with
  | nil => exact absurd rfl filled
  | cons n rest =>
    obtain ⟨nonempty, unbroken⟩ := h n List.mem_cons_self
    cases n with
    | nil => exact absurd rfl nonempty
    | cons c text =>
      have other : c ≠ Ascii.slash := (List.ne_of_not_mem_cons unbroken).symm
      cases rest with
      | nil => exact ⟨c, text ++ [], rfl, other⟩
      | cons next more => exact ⟨c, _, rfl, other⟩

theorem splitOn_join {steps : List Bytes} (h : ∀ n ∈ steps, IsStep n) (filled : steps ≠ []) :
    (Bytes.join [Ascii.slash] steps).splitOn Ascii.slash = steps :=
  List.splitOn_intercalate _ (fun n hn => (h n hn).unbroken) filled

theorem join_injective {a b : List Bytes} (ha : ∀ n ∈ a, IsStep n) (hb : ∀ n ∈ b, IsStep n)
    (h : Bytes.join [Ascii.slash] a = Bytes.join [Ascii.slash] b) : a = b := by
  by_cases emptyA : a = []
  · by_cases emptyB : b = []
    · rw [emptyA, emptyB]
    · obtain ⟨c, text, same, -⟩ := exists_head_join hb emptyB
      rw [emptyA, same] at h
      cases h
  · by_cases emptyB : b = []
    · obtain ⟨c, text, same, -⟩ := exists_head_join ha emptyA
      rw [emptyB, same] at h
      cases h
    · rw [← splitOn_join ha emptyA, h, splitOn_join hb emptyB]

namespace Place

/-- The names along the path of a place. -/
def steps (p : Place) : List Bytes :=
  List.replicate p.up (bytes "..") ++ p.names.reverse

/-- A place that a walk can lead to. -/
structure Walked (p : Place) : Prop where
  names : ∀ n ∈ p.names, IsStep n ∧ n ≠ bytes ".."
  root : p.fromRoot → p.up = 0

theorem walked_start (path : Bytes) : (start path).Walked := by
  unfold start
  split
  · exact ⟨List.forall_mem_nil _, fun _ => rfl⟩
  · exact ⟨List.forall_mem_nil _, fun _ => rfl⟩

theorem Walked.parent {p : Place} (h : p.Walked) : p.parent.Walked := by
  obtain ⟨fromRoot, up, names⟩ := p
  cases names with
  | cons name rest => exact ⟨fun n hn => h.names n (List.mem_cons_of_mem _ hn), h.root⟩
  | nil =>
    cases fromRoot with
    | true => exact h
    | false => exact ⟨List.forall_mem_nil _, Bool.noConfusion⟩

theorem Walked.next {p : Place} {name : Bytes} (h : p.Walked) (unbroken : Ascii.slash ∉ name) :
    (p.next name).Walked := by
  unfold Place.next
  split
  next => exact h
  next stays =>
    split
    next => exact h.parent
    next other =>
      have step : IsStep name := ⟨by rintro rfl; exact stays rfl, unbroken⟩
      exact ⟨List.forall_mem_cons.mpr ⟨⟨step, by simpa using other⟩, h.names⟩, h.root⟩

theorem Walked.steps {p : Place} (h : p.Walked) : ∀ n ∈ p.steps, IsStep n := by
  intro n hn
  rcases List.mem_append.mp hn with hn | hn
  · rw [List.eq_of_mem_replicate hn]
    exact ⟨by decide, by decide⟩
  · exact (h.names n (List.mem_reverse.mp hn)).1

theorem path_eq (p : Place) :
    p.path = if p.fromRoot then Ascii.slash :: Bytes.join [Ascii.slash] p.steps
    else Bytes.join [Ascii.slash] p.steps :=
  rfl

theorem Walked.head?_join {p : Place} (h : p.Walked) :
    (Bytes.join [Ascii.slash] p.steps).head? ≠ some Ascii.slash := by
  by_cases filled : p.steps = []
  · rw [filled]
    exact nofun
  · obtain ⟨c, text, same, other⟩ := exists_head_join h.steps filled
    rw [same, List.head?_cons]
    exact fun slash => other (Option.some.inj slash)

theorem Walked.eq_of_steps {p q : Place} (hp : p.Walked) (hq : q.Walked)
    (base : p.fromRoot = q.fromRoot) (h : p.steps = q.steps) : p = q := by
  have count {p : Place} (walked : p.Walked) : p.steps.count (bytes "..") = p.up := by
    have inner : bytes ".." ∉ p.names.reverse :=
      fun mem => (walked.names _ (List.mem_reverse.mp mem)).2 rfl
    rw [Place.steps, List.count_append, List.count_replicate_self,
      List.count_eq_zero_of_not_mem inner, Nat.add_zero]
  have up : p.up = q.up := by rw [← count hp, h, count hq]
  have names : p.names = q.names := by
    rw [Place.steps, Place.steps, up] at h
    exact List.reverse_inj.mp (List.append_cancel_left h)
  cases p
  cases q
  cases base
  cases up
  cases names
  rfl

/-- A place is known by one path. -/
theorem path_injective {p q : Place} (hp : p.Walked) (hq : q.Walked) (h : p.path = q.path) :
    p = q := by
  rw [path_eq, path_eq] at h
  cases baseP : p.fromRoot with
  | true =>
    cases baseQ : q.fromRoot with
    | true =>
      rw [baseP, baseQ, if_pos rfl, if_pos rfl, List.cons.injEq] at h
      exact hp.eq_of_steps hq (baseP.trans baseQ.symm) (join_injective hp.steps hq.steps h.2)
    | false =>
      rw [baseP, baseQ, if_pos rfl, if_neg Bool.false_ne_true] at h
      exact absurd (by rw [← h, List.head?_cons]) hq.head?_join
  | false =>
    cases baseQ : q.fromRoot with
    | true =>
      rw [baseP, baseQ, if_pos rfl, if_neg Bool.false_ne_true] at h
      exact absurd (by rw [h, List.head?_cons]) hp.head?_join
    | false =>
      rw [baseP, baseQ, if_neg Bool.false_ne_true, if_neg Bool.false_ne_true] at h
      exact hp.eq_of_steps hq (baseP.trans baseQ.symm) (join_injective hp.steps hq.steps h)

end Place

namespace Files

/-- The path leads to the place. -/
def Leads (f : Files) (path : Bytes) (place : Place) : Prop :=
  f.locate path (pathNames path) = .ok place

/-- Two paths lead to one place. -/
def SameFile (f : Files) (a b : Bytes) : Prop :=
  ∃ place, f.Leads a place ∧ f.Leads b place

/-- The directories are the same, and the same places hold something. -/
structure SameShape (f g : Files) : Prop where
  directories : g.directories = f.directories
  filled : ∀ p, (g.content? p).isSome = (f.content? p).isSome

variable {f g : Files} {path : Bytes} {place : Place}

theorem Leads.unique {other : Place} (h : f.Leads path place) (h' : f.Leads path other) :
    place = other :=
  Except.ok.inj (h.symm.trans h')

theorem eq_of_walk {p q : Place} {name : Bytes} (h : f.walk p name = .ok q) : q = p.next name := by
  unfold walk at h
  split at h
  next => cases h
  next =>
    split at h
    next => cases h
    next => exact (Except.ok.inj h).symm

theorem walked_of_foldlM {names : List Bytes} (unbroken : ∀ n ∈ names, Ascii.slash ∉ n) {p : Place}
    (walked : p.Walked) (led : names.foldlM f.walk p = .ok place) : place.Walked := by
  induction names generalizing p with
  | nil =>
    cases led
    exact walked
  | cons n rest ih =>
    obtain ⟨own, others⟩ := List.forall_mem_cons.mp unbroken
    obtain ⟨q, stepped, led⟩ := bind_eq_ok_iff.mp led
    obtain rfl := eq_of_walk stepped
    exact ih others (walked.next own) led

theorem Leads.walked (h : f.Leads path place) : place.Walked := by
  unfold Leads locate at h
  split at h
  next => cases h
  next =>
    exact walked_of_foldlM (fun n => slash_not_mem_of_mem_pathNames) (Place.walked_start path) h

namespace SameShape

theorem refl (f : Files) : f.SameShape f :=
  ⟨rfl, fun _ => rfl⟩

theorem isDirectory (h : f.SameShape g) (p : Place) : g.isDirectory p = f.isDirectory p := by
  rw [Files.isDirectory, Files.isDirectory, h.directories]

theorem locate (h : f.SameShape g) (path : Bytes) (names : List Bytes) :
    g.locate path names = f.locate path names := by
  have walk : g.walk = f.walk := by
    funext p name
    rw [Files.walk, Files.walk, h.isDirectory, noDirectory, noDirectory, h.filled]
  rw [Files.locate, Files.locate, walk]

theorem leads_iff (h : f.SameShape g) : g.Leads path place ↔ f.Leads path place := by
  rw [Leads, Leads, h.locate]

end SameShape

theorem read_eq_ok_iff {content : Bytes} :
    f.read path = .ok content ↔ ∃ place, f.Leads path place ∧ f.content? place = some content := by
  rw [read, bind_eq_ok_iff]
  refine exists_congr fun place => and_congr_right fun _ => ?_
  cases f.content? place with
  | none => simp
  | some own => simp

/-- What is read depends on what the place holds, and on nothing else if the shape is the same. -/
theorem SameShape.read (h : f.SameShape g)
    (same : ∀ place, f.Leads path place → g.content? place = f.content? place) :
    g.read path = f.read path := by
  rw [Files.read, Files.read, h.locate]
  cases led : f.locate path (pathNames path) with
  | error e => rfl
  | ok place => simp only [bind, Except.bind, same place led, h.isDirectory]

theorem leads_of_target (h : f.target path = .ok place) : f.Leads path place := by
  unfold target at h
  split at h
  next => exact h
  next name above _ =>
    split at h
    next => exact h
    next =>
      obtain ⟨directory, -, failed⟩ := bind_eq_ok_iff.mp h
      split at failed
      next => cases failed
      next => cases failed

/-- Where a path leads to, it can write, unless that is a directory. -/
theorem target_of_leads (leads : f.Leads path place) (plain : f.isDirectory place = false) :
    f.target path = .ok place := by
  unfold target
  split
  next => exact leads
  next name above _ =>
    split
    next => exact leads
    next closed =>
      -- The last name is empty, and an empty name is only walked in a directory.
      have last : path.getLast? = some Ascii.slash := by
        simp only [Bool.or_eq_true, bne_iff_ne, ne_eq, not_or, Decidable.not_not] at closed
        exact closed.2
      obtain ⟨front, rfl⟩ := List.getLast?_eq_some_iff.mp last
      have names : pathNames (front ++ [Ascii.slash]) = pathNames front ++ [[]] :=
        List.splitOnP_append_cons front [] (beq_self_eq_true _)
      unfold Leads locate at leads
      split at leads
      next => cases leads
      next =>
        rw [names, List.foldlM_append] at leads
        obtain ⟨before, -, walked⟩ := bind_eq_ok_iff.mp leads
        simp only [List.foldlM_cons, List.foldlM_nil, bind_pure] at walked
        obtain rfl : place = before := eq_of_walk walked
        unfold walk at walked
        split at walked
        next => cases walked
        next directory => simp [plain] at directory

theorem exists_write (leads : f.Leads path place) (plain : f.isDirectory place = false)
    (text : Bytes) : ∃ g, f.write path text = .ok g := by
  simp only [write, target_of_leads leads plain, bind, Except.bind, plain, Bool.false_eq_true,
    ↓reduceIte]
  split
  next => exact ⟨_, rfl⟩
  next => exact ⟨_, rfl⟩

theorem content?_insert (f : Files) (place p : Place) (text : Bytes) :
    ({ f with contents := f.contents.insert place.path text } : Files).content? p =
      if p ≠ nullDevice ∧ p.path = place.path then some text else f.content? p := by
  by_cases null : p = nullDevice
  · simp [content?, null]
  · simp [content?, null, NameMap.get?_insert]

/-- What is written to the null device is lost. -/
theorem eq_of_write {text : Bytes} (leads : f.Leads path place)
    (written : f.write path text = .ok g) :
    g = if place = nullDevice then f
      else { f with contents := f.contents.insert place.path text } := by
  obtain ⟨target, found, written⟩ := bind_eq_ok_iff.mp written
  obtain rfl := leads.unique (leads_of_target found)
  split at written
  next => cases written
  next =>
    split at written
    next null => rw [if_pos null, Except.ok.inj written]
    next visible => rw [if_neg visible, Except.ok.inj written]

/-- What one place holds may have changed, and the rest is as it was. -/
structure Rewrites (f : Files) (place : Place) (g : Files) : Prop where
  shape : f.SameShape g
  others : ∀ p : Place, p.Walked → p ≠ place → g.content? p = f.content? p

theorem rewrites_of_write {content text : Bytes} (leads : f.Leads path place)
    (filled : f.content? place = some content) (written : f.write path text = .ok g) :
    f.Rewrites place g := by
  rw [eq_of_write leads written]
  split
  next => exact ⟨.refl f, fun _ _ _ => rfl⟩
  next visible =>
    refine ⟨⟨rfl, fun p => ?_⟩, fun p walked other => ?_⟩
    · rw [content?_insert f place p text]
      split
      next own =>
        obtain ⟨visibleToo, same⟩ := own
        rw [content?, if_neg visible] at filled
        rw [content?, if_neg visibleToo, same, filled]
        rfl
      next => rfl
    · rw [content?_insert f place p text, if_neg]
      rintro ⟨-, same⟩
      exact other (Place.path_injective walked leads.walked same)

theorem content?_of_write {text : Bytes} (leads : f.Leads path place)
    (visible : place ≠ nullDevice) (written : f.write path text = .ok g) :
    g.content? place = some text := by
  rw [eq_of_write leads written, if_neg visible, content?_insert f place place text,
    if_pos ⟨visible, rfl⟩]

/-- Writing what is there already changes nothing. -/
theorem eq_of_write_same {text : Bytes} (read : f.read path = .ok text)
    (written : f.write path text = .ok g) : g = f := by
  obtain ⟨place, leads, filled⟩ := read_eq_ok_iff.mp read
  rw [eq_of_write leads written]
  split
  next => rfl
  next visible =>
    rw [content?, if_neg visible] at filled
    have same : f.contents.insert place.path text = f.contents := by
      apply NameMap.ext_get?
      intro key
      rw [NameMap.get?_insert]
      split
      next own => rw [own, filled]
      next => rfl
    rw [same]

theorem lawful : system.Lawful SameFile where
  same_refl read := by
    obtain ⟨place, leads, -⟩ := read_eq_ok_iff.mp read
    exact ⟨place, leads, leads⟩
  read_same := by
    rintro f p q ⟨place, leads, leadsToo⟩
    unfold Leads at leads leadsToo
    simp only [system, Files.read, leads, leadsToo]
  same_write read written a b := by
    obtain ⟨place, leads, filled⟩ := read_eq_ok_iff.mp read
    have shape := (rewrites_of_write leads filled written).shape
    exact exists_congr fun p => and_congr shape.leads_iff shape.leads_iff
  read_other read written q other := by
    obtain ⟨place, leads, filled⟩ := read_eq_ok_iff.mp read
    have rewrites := rewrites_of_write leads filled written
    apply rewrites.shape.read
    intro p leadsToo
    apply rewrites.others p leadsToo.walked
    rintro rfl
    exact other ⟨p, leads, leadsToo⟩
  read_settled read written := by
    rw [eq_of_write_same read written]
    exact read

end Files

end StackLang
