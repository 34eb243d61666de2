import Risuko.Lib.Lists
import Risuko.Usenet.Reservation

/-!
# Names, locks and reservations

The helper files of an output are its name with a suffix. Two outputs have paths that meet exactly if they have one lower case or are rivals, and
tasks that hold a lock hold different ones.
-/

namespace Risuko

namespace Usenet

/-! ## The helper files of an output -/

theorem splitAtDot_some {name stem ext : List Char} (h : splitAtDot name = (stem, some ext)) : name = stem ++ '.' :: ext := by
  unfold splitAtDot at h
  have hsplit := List.rdropWhile_append_rtakeWhile (p := (· ≠ '.')) (l := name)
  have hlast := List.rdropWhile_last_not (p := (· ≠ '.')) (l := name)
  dsimp only at h
  split at h
  · cases h
  · cases h
  · rename_i hne _
    obtain ⟨hstem, hext⟩ := Prod.mk.inj h
    rw [Option.some.injEq] at hext
    have hdot : (name.rdropWhile (· ≠ '.')).getLast hne = '.' := by simpa using hlast hne
    rw [← List.dropLast_append_getLast hne, hdot, hstem, hext, List.append_assoc] at hsplit
    exact hsplit.symm

theorem splitAtDot_none {name stem : List Char} (h : splitAtDot name = (stem, none)) : stem = name := by
  unfold splitAtDot at h
  dsimp only at h
  split at h
  · exact (Prod.mk.inj h).1.symm
  · exact (Prod.mk.inj h).1.symm
  · exact absurd (Prod.mk.inj h).2 (Option.some_ne_none _)

/-- A new extension that goes on from the old one is a suffix of the name. -/
theorem withExtension_extension (output default suffix : List Char) (hne : suffix ≠ []) :
    withExtension output ((extension output).getD default ++ suffix) =
      output ++ (if (extension output).isSome then suffix else '.' :: (default ++ suffix)) := by
  have hnil : ∀ s : List Char, s ++ suffix ≠ [] := fun s hs => hne (List.append_eq_nil_iff.mp hs).2
  unfold withExtension fileStem
  rw [if_neg (hnil _)]
  cases hext : extension output with
  | none =>
    have hstem : (splitAtDot output).1 = output := splitAtDot_none (Prod.ext rfl hext)
    rw [hstem]
    rfl
  | some ext =>
    have hname : output = (splitAtDot output).1 ++ '.' :: ext := splitAtDot_some (Prod.ext rfl hext)
    have hcons : (splitAtDot output).1 ++ '.' :: (ext ++ suffix) = ((splitAtDot output).1 ++ '.' :: ext) ++ suffix := by
      rw [List.append_assoc, List.cons_append]
    rw [Option.getD_some, hcons, ← hname]
    rfl

/-- What a name with or without an extension gets for the partial file, and for the sidecar. -/
def partialSuffix (hasExtension : Bool) : List Char := if hasExtension then ".part".toList else ".download.part".toList

def sidecarSuffix (hasExtension : Bool) : List Char := if hasExtension then ".resume.json".toList else ".part.resume.json".toList

theorem partialPath_eq (output : List Char) : partialPath output = output ++ partialSuffix (extension output).isSome := by
  unfold partialPath
  rw [withExtension_extension _ _ _ (by decide)]
  cases (extension output).isSome <;> rfl

theorem resumeSidecarPath_eq (output : List Char) : resumeSidecarPath output = output ++ sidecarSuffix (extension output).isSome := by
  unfold resumeSidecarPath
  rw [withExtension_extension _ _ _ (by decide)]
  cases (extension output).isSome <;> rfl

/-! ## Paths that meet -/

theorem partialSuffix_mem (e e' : Bool) : partialSuffix e ∈ shadowSuffixes e e' := by cases e <;> cases e' <;> decide +kernel

theorem sidecarSuffix_mem (e e' : Bool) : sidecarSuffix e ∈ shadowSuffixes e e' := by cases e <;> cases e' <;> decide +kernel

/-- A partial file is never a sidecar. -/
theorem append_partialSuffix_ne (a b : List Char) (e e' : Bool) : a ++ partialSuffix e ≠ b ++ sidecarSuffix e' := by
  intro h
  have hpart : (partialSuffix e).getLast? = some 't' := by cases e <;> decide
  have hside : (sidecarSuffix e').getLast? = some 'n' := by cases e' <;> decide
  have hlast := congrArg List.getLast? h
  rw [List.getLast?_append, List.getLast?_append, hpart, hside, Option.some_or, Option.some_or] at hlast
  exact absurd hlast (by decide)

/-- What is left when the common end of two helper files is taken off. -/
theorem eq_or_of_append_eq (front : List Char) {a b tail : List Char} {e e' : Bool} {suffix : Bool → List Char} (htrue : suffix true = tail)
    (hfalse : suffix false = front ++ tail) (hmem : front ∈ shadowSuffixes false true) (h : a ++ suffix e = b ++ suffix e') :
    a = b ∨ (∃ x ∈ shadowSuffixes e e', b = a ++ x) ∨ ∃ x ∈ shadowSuffixes e' e, a = b ++ x := by
  cases e <;> cases e'
  · exact .inl (List.append_cancel_right h)
  · rw [htrue, hfalse, ← List.append_assoc] at h
    exact .inr (.inl ⟨front, hmem, (List.append_cancel_right h).symm⟩)
  · rw [htrue, hfalse, ← List.append_assoc] at h
    exact .inr (.inr ⟨front, hmem, List.append_cancel_right h⟩)
  · exact .inl (List.append_cancel_right h)

theorem mem_shadowSuffixes (e e' : Bool) : ∀ x ∈ shadowSuffixes e e', x = partialSuffix e ∨ x = sidecarSuffix e ∨
    partialSuffix e = x ++ partialSuffix e' ∨ sidecarSuffix e = x ++ sidecarSuffix e' := by
  cases e <;> cases e' <;> decide +kernel

/-- Outputs have paths that meet exactly if they are one without regard to case, or one shadows the other. -/
theorem pathsApart_iff (t : CaseTables) (output other : List Char) :
    PathsApart t output other ↔ t.foldCase output ≠ t.foldCase other ∧ ¬Shadows t output other ∧ ¬Shadows t other output := by
  have hpart : ∀ e, t.foldCase (partialSuffix e) = partialSuffix e := fun e =>
    CaseTables.foldCase_eq_self (by cases e <;> decide)
  have hside : ∀ e, t.foldCase (sidecarSuffix e) = sidecarSuffix e := fun e =>
    CaseTables.foldCase_eq_self (by cases e <;> decide)
  unfold PathsApart paths Shadows
  simp only [List.forall_mem_cons, List.not_mem_nil, false_implies, implies_true, and_true, partialPath_eq, resumeSidecarPath_eq,
    CaseTables.foldCase_append, hpart, hside]
  generalize t.foldCase output = a
  generalize t.foldCase other = b
  generalize (extension output).isSome = e
  generalize (extension other).isSome = e'
  constructor
  · rintro ⟨⟨hsame, hbp, hbs⟩, ⟨hap, hpp, -⟩, has, -, hss⟩
    refine ⟨hsame, ?_, ?_⟩
    · rintro ⟨x, hx, rfl⟩
      rcases mem_shadowSuffixes e e' x hx with rfl | rfl | h | h
      · exact hap rfl
      · exact has rfl
      · exact hpp (by rw [h, List.append_assoc])
      · exact hss (by rw [h, List.append_assoc])
    · rintro ⟨x, hx, rfl⟩
      rcases mem_shadowSuffixes e' e x hx with rfl | rfl | h | h
      · exact hbp rfl
      · exact hbs rfl
      · exact hpp (by rw [h, List.append_assoc])
      · exact hss (by rw [h, List.append_assoc])
  · rintro ⟨hne, hshadow, hshadow'⟩
    have hor : ¬(a = b ∨ (∃ x ∈ shadowSuffixes e e', b = a ++ x) ∨ ∃ x ∈ shadowSuffixes e' e, a = b ++ x) := by
      rintro (h | h | h)
      · exact hne h
      · exact hshadow h
      · exact hshadow' h
    refine ⟨⟨hne, fun h => hshadow' ⟨_, partialSuffix_mem e' e, h⟩, fun h => hshadow' ⟨_, sidecarSuffix_mem e' e, h⟩⟩,
      ⟨fun h => hshadow ⟨_, partialSuffix_mem e e', h.symm⟩, ?_, append_partialSuffix_ne a b e e'⟩,
      fun h => hshadow ⟨_, sidecarSuffix_mem e e', h.symm⟩, fun h => append_partialSuffix_ne b a e' e h.symm, ?_⟩
    · intro h
      exact hor (eq_or_of_append_eq ".download".toList rfl rfl (by decide) h)
    · intro h
      exact hor (eq_or_of_append_eq ".part".toList rfl rfl (by decide) h)

/-! ## The steps of a task -/

variable {env : Readers}

theorem outputLockPath_congr {output other : List Char} (h : env.tables.toLowercase output = env.tables.toLowercase other) :
    outputLockPath env output = outputLockPath env other := by
  unfold outputLockPath
  rw [h]

namespace Task

theorem holdsLock_retry (t : Task) (uuid : List Char) : (t.retry uuid).holdsLock = false := by
  unfold retry
  split <;> rfl

theorem holdsLock_of_held {t : Task} (h : t.stage = .held) : t.holdsLock = true := by rw [holdsLock, h]

/-- A task that has a lock after a step has it for the candidate of before, which it had or which was free, and it gets its reservation only
if the check passed under the lock. -/
theorem advance_cases {disk : Directory} {free : Bool} {uuid : List Char} {t t' : Task} (h : t.advance env disk free uuid = some t') :
    t'.holdsLock = false ∨ (t'.candidate = t.candidate ∧ (t.holdsLock = true ∨ (t.stage = .locking ∧ free = true)) ∧
      (t'.stage = .held → t.passesUnderLock env disk = true)) := by
  unfold advance at h
  cases hs : t.stage with
  | checking locked check =>
    simp only [hs] at h
    cases locked with
    | false =>
      left
      split at h <;> obtain rfl := Option.some.inj h
      · rfl
      · rfl
      · exact holdsLock_retry t uuid
      · rfl
    | true =>
      have hholds : t.holdsLock = true := by rw [holdsLock, hs]
      split at h <;> obtain rfl := Option.some.inj h
      · rename_i hpassed
        exact .inr ⟨rfl, .inl hholds, fun _ => by simp [passesUnderLock, hs, hpassed]⟩
      · exact .inr ⟨rfl, .inl hholds, fun hheld => by cases hheld⟩
      · exact .inl (holdsLock_retry t uuid)
      · exact .inl rfl
  | locking =>
    simp only [hs] at h
    obtain rfl := Option.some.inj h
    cases free with
    | false => exact .inl (holdsLock_retry t uuid)
    | true => exact .inr ⟨rfl, .inr ⟨rfl, rfl⟩, fun hheld => by cases hheld⟩
  | held =>
    simp only [hs] at h
    cases h
  | ended error =>
    simp only [hs] at h
    cases h

end Task

/-! ## The tasks of a directory -/

/-- Two tasks do not hold one lock, and two reservations are not held for rivals. -/
structure Exclude (env : Readers) (t t' : Task) : Prop where
  locks : t.holdsLock = true → t'.holdsLock = true → outputLockPath env t.candidate ≠ outputLockPath env t'.candidate
  rivals : t.stage = .held → t'.stage = .held → ¬Rivals env.tables t.candidate t'.candidate

theorem Rivals.symm {t : CaseTables} {output other : List Char} (h : Rivals t output other) : Rivals t other output := by
  rcases h with ⟨hfold, hlower⟩ | h | h
  · exact .inl ⟨hfold.symm, hlower.symm⟩
  · exact .inr (.inr h)
  · exact .inr (.inl h)

theorem Exclude.symm {t t' : Task} (h : Exclude env t t') : Exclude env t' t where
  locks := fun ht' ht => (h.locks ht ht').symm
  rivals := fun ht' ht hrivals => h.rivals ht ht' hrivals.symm

/-- A task without a lock is in nobody's way. -/
theorem Exclude.of_unlocked {t : Task} (h : t.holdsLock = false) (t' : Task) : Exclude env t t' where
  locks := by
    intro ht
    rw [h] at ht
    cases ht
  rivals := by
    intro ht
    rw [Task.holdsLock_of_held ht] at h
    cases h

/-- Reservations whose tasks exclude each other are for paths that do not meet. -/
theorem Exclude.pathsApart {t t' : Task} (h : Exclude env t t') (ht : t.stage = .held) (ht' : t'.stage = .held) :
    PathsApart env.tables t.candidate t'.candidate := by
  have hlower : env.tables.toLowercase t.candidate ≠ env.tables.toLowercase t'.candidate := fun heq =>
    h.locks (Task.holdsLock_of_held ht) (Task.holdsLock_of_held ht') (outputLockPath_congr heq)
  have hrivals := h.rivals ht ht'
  exact (pathsApart_iff _ _ _).mpr ⟨fun heq => hrivals (.inl ⟨heq, hlower⟩), fun hs => hrivals (.inr (.inl hs)), fun hs => hrivals (.inr (.inr hs))⟩

namespace Reservations

theorem lockFree_spec {s : Reservations} {output : List Char} (h : s.lockFree env output = true) :
    ∀ t ∈ s.tasks, t.holdsLock = true → outputLockPath env t.candidate ≠ outputLockPath env output := by
  intro t ht hholds
  have hfree := List.all_eq_true.mp h t ht
  simpa [hholds] using hfree

/-- A step keeps tasks apart, if it hands out no reservation for a rival of one that is held. -/
theorem step_exclude {s s' : Reservations} {a : ReserveAction} (hclear : s.Clear env a) (hs : s.step env a = some s')
    (h : EachTwo (Exclude env) s.tasks) : EachTwo (Exclude env) s'.tasks := by
  have hsymm : ∀ t t', Exclude env t t' → Exclude env t' t := fun _ _ => Exclude.symm
  cases a with
  | start name segments =>
    simp only [step] at hs
    split at hs
    · obtain rfl := Option.some.inj hs
      exact h.concat hsymm fun t _ => .of_unlocked rfl t
    · cases hs
  | advance i uuid =>
    simp only [step] at hs
    split at hs
    · cases hs
    · rename_i t ht
      obtain ⟨t', hadvance, rfl⟩ := Option.map_eq_some_iff.mp hs
      refine h.set hsymm fun j other hne hother => ?_
      rcases Task.advance_cases hadvance with hnone | ⟨hcandidate, hlock, hpasses⟩
      · exact .of_unlocked hnone other
      · have hothermem := List.mem_of_getElem? hother
        constructor
        · intro _ hholds
          rw [hcandidate]
          rcases hlock with hheld | ⟨-, hfree⟩
          · exact (h i j t other hne.symm ht hother).locks hheld hholds
          · exact (lockFree_spec hfree other hothermem hholds).symm
        · intro hheld hotherheld
          rw [hcandidate]
          exact hclear t ht (hpasses hheld) other hothermem hotherheld
  | fail i error =>
    simp only [step] at hs
    split at hs
    · cases hs
    split at hs
    · obtain rfl := Option.some.inj hs
      exact h.set hsymm fun _ other _ _ => .of_unlocked rfl other
    · obtain rfl := Option.some.inj hs
      exact h.set hsymm fun _ other _ _ => .of_unlocked rfl other
    · cases hs
    · cases hs
  | drop i =>
    simp only [step] at hs
    split at hs
    · cases hs
    · obtain rfl := Option.some.inj hs
      exact h.set hsymm fun _ other _ _ => .of_unlocked rfl other
  | change path entry =>
    obtain rfl := Option.some.inj hs
    exact h

end Reservations

end Usenet

end Risuko
