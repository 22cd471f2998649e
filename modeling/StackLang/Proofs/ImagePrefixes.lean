import StackLang.Proofs.ImageFormat

namespace StackLang

/-- The loader needed more bytes than there were. -/
def LoadError.Shortage (cause : LoadError) : Prop :=
  ∃ need available, cause = .truncated need available ∧ available < need

namespace Image

section Extension

variable {b : Bytes} {f : LoadFailure}

theorem shortage_of_takeBytes {n : Nat} (h : takeBytes n b = .error f) : f.cause.Shortage := by
  simp only [takeBytes] at h
  split at h
  next => cases h
  next short =>
    cases h
    refine ⟨n, (b.take n).length, rfl, ?_⟩
    have atMost := List.length_take_le n b
    omega

theorem shortage_of_takeNumber {width : Nat} (h : takeNumber width b = .error f) :
    f.cause.Shortage := by
  rcases bind_eq_error_iff.mp h with taken | ⟨pair, -, last⟩
  · exact shortage_of_takeBytes taken
  · cases last

theorem takeBytes_append {n : Nat} {taken rest : Bytes} (h : takeBytes n b = .ok (taken, rest))
    (more : Bytes) :
    takeBytes n (b ++ more) = .ok (taken, rest ++ more) := by
  obtain ⟨split, size⟩ := takeBytes_eq_ok_iff.mp h
  exact takeBytes_eq_ok_iff.mpr ⟨by rw [split, List.append_assoc], size⟩

theorem takeNumber_append {width n : Nat} {rest : Bytes} (h : takeNumber width b = .ok (n, rest))
    (more : Bytes) :
    takeNumber width (b ++ more) = .ok (n, rest ++ more) := by
  obtain ⟨split, fits⟩ := takeNumber_eq_ok_iff.mp h
  exact takeNumber_eq_ok_iff.mpr ⟨by rw [split, List.append_assoc], fits⟩

theorem takeText_fails_longer (h : takeText b = .error f) (settled : ¬ f.cause.Shortage)
    (more : Bytes) :
    takeText (b ++ more) = .error f := by
  rcases bind_eq_error_iff.mp h with number | ⟨⟨size, tail⟩, number, others⟩
  · exact absurd (shortage_of_takeNumber number) settled
  · rcases bind_eq_error_iff.mp others with text | ⟨⟨text, rest⟩, taken, checked⟩
    · exact absurd (shortage_of_takeBytes text) settled
    · have invalid : ¬ Utf8.valid text := by
        intro valid
        simp [valid] at checked
      have cause : f = .bare .invalidUtf8 := by simpa [invalid] using checked.symm
      refine bind_eq_error_iff.mpr (.inr ⟨_, takeNumber_append number more, ?_⟩)
      refine bind_eq_error_iff.mpr (.inr ⟨_, takeBytes_append taken more, ?_⟩)
      simp [invalid, cause]

theorem takeFramed_append {r : Framed} (h : takeFramed b = .ok r) (more : Bytes) :
    takeFramed (b ++ more) = .ok { r with rest := r.rest ++ more } := by
  obtain ⟨split, loadable, length, fits⟩ := takeFramed_eq_ok_iff.mp h
  refine takeFramed_eq_ok_iff.mpr ⟨?_, loadable, length, fits⟩
  rw [split, List.append_assoc]

theorem takeFramed_fails_longer (h : takeFramed b = .error f) (settled : ¬ f.cause.Shortage)
    (more : Bytes) :
    takeFramed (b ++ more) = .error f := by
  rcases bind_eq_error_iff.mp h with name | ⟨named, -, others⟩
  · obtain ⟨e, failed, rfl⟩ := mapError_eq_error_iff.mp name
    have longer := takeText_fails_longer failed settled more
    exact bind_eq_error_iff.mpr (.inl (mapError_eq_error_iff.mpr ⟨e, longer, rfl⟩))
  · rcases bind_eq_error_iff.mp others with size | ⟨sized, -, others⟩
    · obtain ⟨e, failed, rfl⟩ := mapError_eq_error_iff.mp size
      exact absurd (shortage_of_takeNumber failed) settled
    · rcases bind_eq_error_iff.mp others with code | ⟨coded, -, last⟩
      · obtain ⟨e, failed, rfl⟩ := mapError_eq_error_iff.mp code
        exact absurd (shortage_of_takeBytes failed) settled
      · cases last

/-- Records that fail for another reason than a shortage fail in the same way whatever follows. -/
theorem recordsAfter_fail_longer {read : List Record} {pos : Nat}
    (h : (recordsAfter read pos b).2 = some f) (settled : ¬ f.cause.Shortage) (more : Bytes) :
    recordsAfter read pos (b ++ more) = recordsAfter read pos b := by
  fun_induction recordsAfter read pos b with
  | case1 => simp at h
  | case2 read pos b nonempty e failed =>
    obtain rfl : e.within (recordContext pos) = f := by simpa using h
    have nonempty' : b ++ more ≠ [] := by
      intro empty
      exact nonempty (List.isEmpty_iff.mpr (List.append_eq_nil_iff.mp empty).1)
    exact recordsAfter_of_error nonempty' (takeFramed_fails_longer failed settled more) read pos
  | case3 read pos b nonempty r framed e failed =>
    rw [recordsAfter_of_framed (takeFramed_append framed more)]
    simp only [failed]
  | case4 read pos b nonempty r framed code decoded ih =>
    rw [recordsAfter_of_framed (takeFramed_append framed more)]
    simp only [decoded]
    exact ih h

theorem takeHeader_append {n : Nat} {body : Bytes} (h : takeHeader b = .ok (n, body))
    (more : Bytes) :
    takeHeader (b ++ more) = .ok (n, body ++ more) := by
  obtain ⟨field, split, size, value⟩ := takeHeader_eq_ok_iff.mp h
  exact takeHeader_eq_ok_iff.mpr ⟨field, by rw [split, List.append_assoc], size, value⟩

theorem takeHeader_fails_longer (h : takeHeader b = .error f) (settled : ¬ f.cause.Shortage)
    (enough : f.cause = .badMagic → magic.length ≤ b.length) (more : Bytes) :
    takeHeader (b ++ more) = .error f := by
  unfold takeHeader at h
  split at h
  next =>
    obtain ⟨e, failed, rfl⟩ := mapError_eq_error_iff.mp h
    exact absurd (shortage_of_takeNumber failed) settled
  next different =>
    cases h
    rw [takeHeader, List.take_append_of_le_length (enough rfl), if_neg different]

/-- The ways in which loading fails: at the header, at a record, or without a main function. -/
theorem load_eq_error_cases (h : Program.load b = .error f) :
    takeHeader b = .error f ∨
      ∃ n body, takeHeader b = .ok (n, body) ∧
        ((records body).2 = some f ∨ (records body).2 = none ∧ f = .bare .noMain) := by
  rcases bind_eq_error_iff.mp h with header | ⟨⟨n, body⟩, header, others⟩
  · exact .inl header
  · refine .inr ⟨n, body, header, ?_⟩
    cases found : records body with
    | mk read failure =>
      cases failure with
      | some e => simpa [found] using others
      | none =>
        simp only [found] at others
        split at others
        next => cases others
        next => exact .inr ⟨rfl, by simpa using others.symm⟩

theorem load_of_records_fail {n : Nat} {body : Bytes} (header : takeHeader b = .ok (n, body))
    (failed : (records body).2 = some f) : Program.load b = .error f := by
  refine bind_eq_error_iff.mpr (.inr ⟨(n, body), header, ?_⟩)
  cases found : records body with
  | mk read failure =>
    rw [found] at failed
    obtain rfl : failure = some f := failed
    simp only [found]

theorem load_fails_longer (h : Program.load b = .error f) (settled : ¬ f.cause.Shortage)
    (complete : f.cause ≠ .noMain) (enough : f.cause = .badMagic → magic.length ≤ b.length)
    (more : Bytes) : Program.load (b ++ more) = .error f := by
  rcases load_eq_error_cases h with header | ⟨n, body, header, failed | ⟨-, rfl⟩⟩
  · exact bind_eq_error_iff.mpr (.inl (takeHeader_fails_longer header settled enough more))
  · have same : records (body ++ more) = records body :=
      recordsAfter_fail_longer failed settled more
    exact load_of_records_fail (takeHeader_append header more) (by rw [same, failed])
  · exact absurd rfl complete

end Extension

section Cut

variable {p field : Bytes}

/-- How long an image of some functions is. -/
def imageSize (entries : List Entry) : Nat :=
  magic.length + 4 + (entriesForm entries).length

/-- Part of a record is too short. More bytes can complete it, so nothing else is wrong with it. -/
theorem takeFramed_cut {e : Entry} {part left : Bytes} (split : e.form = part ++ left)
    (cut : left ≠ []) :
    ∃ f, takeFramed part = .error f ∧ f.cause.Shortage := by
  have whole := e.takeFramed_form []
  rw [List.append_nil, split] at whole
  cases found : takeFramed part with
  | ok r =>
    have longer := takeFramed_append found left
    rw [whole] at longer
    have rest : [] = r.rest ++ left := congrArg Framed.rest (Except.ok.inj longer)
    exact absurd (List.append_eq_nil_iff.mp rest.symm).2 cut
  | error f =>
    refine ⟨f, rfl, ?_⟩
    by_contra settled
    have longer := takeFramed_fails_longer found settled left
    rw [whole] at longer
    cases longer

theorem load_cut_magic (short : p.length < magic.length) :
    Program.load p = .error (.bare .badMagic) := by
  have different : p.take magic.length ≠ magic := by
    intro same
    have length := congrArg List.length same
    rw [List.length_take] at length
    omega
  exact bind_eq_error_iff.mpr (.inl (if_neg different))

theorem load_cut_header (start : magic <+: p) (short : p.length < magic.length + 4) :
    ∃ f, Program.load p = .error f ∧ f.cause.Shortage := by
  have same : p.take magic.length = magic := (List.prefix_iff_eq_take.mp start).symm
  cases number : takeNumber 4 (p.drop magic.length) with
  | ok found =>
    have enough := takeNumber_length number
    rw [List.length_drop] at enough
    omega
  | error f =>
    have shortage := shortage_of_takeNumber number
    refine ⟨f.within (bytes "body length"), bind_eq_error_iff.mpr (.inl ?_), shortage⟩
    rw [takeHeader, if_pos same, number]
    rfl

/-- An image with part of a record behind it. -/
theorem load_cut_record (size : field.length = 4) (front : List Entry) {e : Entry}
    {part left : Bytes} (split : e.form = part ++ left) (started : part ≠ []) (cut : left ≠ []) :
    ∃ f, Program.load (magic ++ field ++ entriesForm front ++ part) = .error f ∧ f.cause.Shortage ∧
      f.path.head? = some (recordContext (imageSize front)) := by
  obtain ⟨f, failed, shortage⟩ := takeFramed_cut split cut
  have header : takeHeader (magic ++ field ++ entriesForm front ++ part) =
      .ok (Word.decode field, entriesForm front ++ part) :=
    takeHeader_eq_ok_iff.mpr ⟨field, by simp, size, rfl⟩
  refine ⟨f.within (recordContext (imageSize front)), load_of_records_fail header ?_, shortage, rfl⟩
  rw [records, recordsAfter_entriesForm_append, recordsAfter_of_error started failed]
  rfl

theorem eq_append_of_prefix {a b : Bytes} (hp : p <+: a ++ b) (longer : a.length ≤ p.length) :
    ∃ part, p = a ++ part ∧ part <+: b := by
  obtain ⟨part, rfl⟩ := List.prefix_of_prefix_length_le (List.prefix_append a b) hp longer
  exact ⟨part, rfl, (List.prefix_append_right_inj a).mp hp⟩

theorem prefix_inside_record {front others : List Entry} {e : Entry} (size : field.length = 4)
    (hp : p <+: magic ++ field ++ entriesForm (front ++ e :: others))
    (after : imageSize front < p.length) (before : p.length < imageSize (front ++ [e])) :
    ∃ part left, p = magic ++ field ++ entriesForm front ++ part ∧ e.form = part ++ left ∧
      part ≠ [] ∧ left ≠ [] := by
  have split : magic ++ field ++ entriesForm (front ++ e :: others) =
      (magic ++ field ++ entriesForm front) ++ (e.form ++ entriesForm others) := by
    simp [entriesForm]
  have length : (magic ++ field ++ entriesForm front).length = imageSize front := by
    simp only [List.length_append, size, imageSize]
  have next : imageSize (front ++ [e]) = imageSize front + e.form.length := by
    simp [imageSize, entriesForm]
    omega
  rw [split] at hp
  obtain ⟨part, rfl, hpart⟩ := eq_append_of_prefix hp (by omega)
  rw [List.length_append] at after before
  obtain ⟨left, hleft⟩ :=
    List.prefix_of_prefix_length_le hpart (List.prefix_append e.form _) (by omega)
  have whole := congrArg List.length hleft
  rw [List.length_append] at whole
  refine ⟨part, left, rfl, hleft.symm, ?_, ?_⟩
  · apply List.ne_nil_of_length_pos
    omega
  · apply List.ne_nil_of_length_pos
    omega

theorem prefix_at_record {front others : List Entry} (size : field.length = 4)
    (hp : p <+: magic ++ field ++ entriesForm (front ++ others))
    (ends : p.length = imageSize front) :
    p = magic ++ field ++ entriesForm front := by
  have split : magic ++ field ++ entriesForm (front ++ others) =
      (magic ++ field ++ entriesForm front) ++ entriesForm others := by
    simp [entriesForm]
  have length : (magic ++ field ++ entriesForm front).length = imageSize front := by
    simp only [List.length_append, size, imageSize]
  rw [split] at hp
  obtain ⟨part, rfl, -⟩ := eq_append_of_prefix hp (by omega)
  rw [List.length_append] at ends
  have empty : part = [] := List.eq_nil_of_length_eq_zero (by omega)
  rw [empty, List.append_nil]

end Cut

/-- A failure for an unknown operation, for invalid UTF-8, or for the fixed first bytes where there
are enough of them, is the same whatever follows. Of an image that can be loaded, a part that ends
inside the header or inside a record is too short, and a part that ends with a record is the image
of the functions up to there, of which one must be the main function. -/
theorem load_longer_and_shorter_images :
    (∀ (b more : Bytes) (f : LoadFailure), Program.load b = .error f →
      (∃ op pos, f.cause = .unknownOpcode op pos) ∨ f.cause = .invalidUtf8 ∨
        f.cause = .badMagic ∧ 4 ≤ b.length → Program.load (b ++ more) = .error f) ∧
    ∀ (b : Bytes) (program : Program), Program.load b = .ok program →
      ∃ field entries, IsImage b field entries ∧ ∀ p, p <+: b →
        (p.length < 4 → Program.load p = .error (.bare .badMagic)) ∧
        (4 ≤ p.length → p.length < 8 → ∃ f, Program.load p = .error f ∧ f.cause.Shortage) ∧
        (∀ front e others, entries = front ++ e :: others → imageSize front < p.length →
          p.length < imageSize (front ++ [e]) →
          ∃ f, Program.load p = .error f ∧ f.cause.Shortage ∧
            f.path.head? = some (recordContext (imageSize front))) ∧
        ∀ front others, entries = front ++ others → p.length = imageSize front →
          ((∃ e ∈ front, e.name = mainName) → ∃ cut, Program.load p = .ok cut ∧
            cut.bodyLen = program.bodyLen ∧
            ∀ name, cut.routines.get? name = ((front.filter fun e => e.name = name).getLast?).map
              Entry.routine) ∧
          ((∀ e ∈ front, e.name ≠ mainName) → Program.load p = .error (.bare .noMain)) := by
  constructor
  · rintro b more ⟨path, cause⟩ h kind
    cases cause with
    | badMagic =>
      have enough : 4 ≤ b.length := by simpa using kind
      exact load_fails_longer h (by simp [LoadError.Shortage]) (by simp) (fun _ => enough) more
    | invalidUtf8 =>
      exact load_fails_longer h (by simp [LoadError.Shortage]) (by simp) (by simp) more
    | unknownOpcode op pos =>
      exact load_fails_longer h (by simp [LoadError.Shortage]) (by simp) (by simp) more
    | truncated need available => simp at kind
    | noMain => simp at kind
  · intro b program loaded
    obtain ⟨field, entries, ⟨size, rfl⟩, -, rfl⟩ := load_eq_ok_iff.mp loaded
    refine ⟨field, entries, ⟨size, rfl⟩, fun p hp =>
      ⟨load_cut_magic, fun enough short => ?_, ?_, ?_⟩⟩
    · have start : magic <+: p := by
        rw [List.append_assoc] at hp
        exact List.prefix_of_prefix_length_le (List.prefix_append magic _) hp enough
      exact load_cut_header start short
    · rintro front e others rfl after before
      obtain ⟨part, left, rfl, split, started, cut⟩ := prefix_inside_record size hp after before
      exact load_cut_record size front split started cut
    · rintro front others rfl ends
      obtain rfl := prefix_at_record size hp ends
      rw [load_entriesForm size]
      refine ⟨fun main => ?_, fun absent => ?_⟩
      · rw [if_pos main]
        exact ⟨_, rfl, rfl, get?_entriesTable front⟩
      · rw [if_neg]
        rintro ⟨e, he, main⟩
        exact absent e he main

/-- The main function writes, and then comes a byte that is no operation. -/
def strayImage : Bytes :=
  header 0 ++ textForm mainName ++ [0, 0, 0, 2, 0x12, 0x13]

theorem loadableText_main : LoadableText mainName := by
  decide

theorem loadableText_helper : LoadableText (bytes "a") := by
  decide

/-- The main function stands between two functions of one name. -/
def helperEntries : List Entry :=
  [⟨bytes "a", [.write], loadableText_helper, List.forall_mem_singleton.mpr trivial, by decide⟩,
    ⟨mainName, [.call (bytes "a")], loadableText_main,
      List.forall_mem_singleton.mpr loadableText_helper, by decide⟩,
    ⟨bytes "a", [], loadableText_helper, List.forall_mem_nil _, by decide⟩]

def helperImage : Bytes :=
  magic ++ [0, 0, 0, 0] ++ entriesForm helperEntries

/-- The second image can be loaded. It is cut behind its first record, behind its second one, and
inside its third one. -/
theorem strayImage_longer_helperImage_shorter :
    (Program.load strayImage = .error ⟨[recordContext 8, mainName], .unknownOpcode 0x13 1⟩ ∧
      ∀ more, Program.load (strayImage ++ more) =
        .error ⟨[recordContext 8, mainName], .unknownOpcode 0x13 1⟩) ∧
    (∃ program, Program.load helperImage = .ok program) ∧
    Program.load (helperImage.take 16) = .error (.bare .noMain) ∧
    (∃ cut, Program.load (helperImage.take 30) = .ok cut ∧
      cut.routines.get? (bytes "a") = some ⟨1, [(0, .write)]⟩) ∧
    ∃ f, Program.load (helperImage.take 33) = .error f ∧ f.cause.Shortage ∧
      f.path.head? = some (recordContext 30) := by
  have header : takeHeader strayImage = .ok (0, strayImage.drop 8) :=
    takeHeader_eq_ok_iff.mpr ⟨[0, 0, 0, 0], by decide, rfl, rfl⟩
  have failed : (records (strayImage.drop 8)).2 =
      some ⟨[recordContext 8, mainName], .unknownOpcode 0x13 1⟩ := by
    decide +kernel
  have stray := load_of_records_fail header failed
  have stored : IsImage helperImage [0, 0, 0, 0] helperEntries := ⟨rfl, rfl⟩
  have loaded : Program.load helperImage = .ok ⟨0, entriesTable helperEntries⟩ :=
    load_eq_ok_iff.mpr ⟨_, _, stored, ⟨_, List.mem_cons_of_mem _ List.mem_cons_self, rfl⟩, rfl⟩
  obtain ⟨longer, shorter⟩ := load_longer_and_shorter_images
  obtain ⟨field, entries, isImage, cuts⟩ := shorter _ _ loaded
  obtain ⟨rfl, rfl⟩ := isImage.unique stored
  refine ⟨⟨stray, fun more => longer _ more _ stray (.inl ⟨0x13, 1, rfl⟩)⟩, ⟨_, loaded⟩, ?_, ?_, ?_⟩
  · obtain ⟨-, -, -, ends⟩ := cuts _ (List.take_prefix 16 _)
    exact (ends (helperEntries.take 1) (helperEntries.drop 1) rfl (by decide +kernel)).2
      (by decide +kernel)
  · obtain ⟨-, -, -, ends⟩ := cuts _ (List.take_prefix 30 _)
    obtain ⟨cut, load, -, table⟩ :=
      (ends (helperEntries.take 2) (helperEntries.drop 2) rfl (by decide +kernel)).1
        ⟨_, List.mem_cons_of_mem _ List.mem_cons_self, rfl⟩
    refine ⟨cut, load, ?_⟩
    rw [table]
    decide +kernel
  · obtain ⟨-, -, inside, -⟩ := cuts _ (List.take_prefix 33 _)
    exact inside (helperEntries.take 2) _ [] rfl (by decide +kernel) (by decide +kernel)

end Image

end StackLang
