import ScCore.Rgp.Command

/-!
# Reading a command in parts

The readers of the arguments and of the commands are resumable: bytes that have
arrived in two parts are read like bytes that have arrived at once. The one
exception is a content of a type the reader does not know, where it asks for
bytes it does not use.
-/

namespace ScCore.Rgp

open Turn

structure Resumes {α : Type} (read : α → List Byte → α × List Byte × ReadResult)
    (stuck : α → Prop) : Prop where
  stop : ∀ {a bs a' rest r}, read a bs = (a', rest, r) → ¬r.needs ∨ stuck a' →
    ∀ more, read a (bs ++ more) = (a', rest ++ more, r)
  resume : ∀ {a bs a' rest r}, read a bs = (a', rest, r) → r.needs → ¬stuck a' →
    ∀ more, read a (bs ++ more) = read a' (rest ++ more)

namespace Resumes

variable {α : Type} {read : α → List Byte → α × List Byte × ReadResult} {stuck : α → Prop}

theorem stop_eq (res : Resumes read stuck) {a : α} {bs : List Byte}
    (hr : ¬(read a bs).2.2.needs ∨ stuck (read a bs).1) (more : List Byte) :
    read a (bs ++ more) = ((read a bs).1, (read a bs).2.1 ++ more, (read a bs).2.2) :=
  res.stop rfl hr more

theorem resume_eq (res : Resumes read stuck) {a : α} {bs : List Byte}
    (hr : (read a bs).2.2.needs) (free : ¬stuck (read a bs).1) (more : List Byte) :
    read a (bs ++ more) = read (read a bs).1 ((read a bs).2.1 ++ more) :=
  res.resume rfl hr free more

end Resumes

/-- What a reading does with more bytes: it leaves them when it is over or stuck, and is taken up
by the reader otherwise. -/
structure Continues {α : Type} (reading : List Byte → α × List Byte × ReadResult)
    (read : α → List Byte → α × List Byte × ReadResult) (stuck : α → Prop)
    (bs more : List Byte) : Prop where
  stop : ¬(reading bs).2.2.needs ∨ stuck (reading bs).1 →
    reading (bs ++ more) = ((reading bs).1, (reading bs).2.1 ++ more, (reading bs).2.2)
  resume : (reading bs).2.2.needs → ¬stuck (reading bs).1 →
    reading (bs ++ more) = read (reading bs).1 ((reading bs).2.1 ++ more)

namespace Continues

variable {α : Type} {reading : List Byte → α × List Byte × ReadResult}
  {read : α → List Byte → α × List Byte × ReadResult} {stuck : α → Prop} {bs rest more : List Byte}
  {a' : α} {r : ReadResult}

theorem ends (h : reading bs = (a', rest, r)) (hr : ¬r.needs ∨ stuck a')
    (left : reading (bs ++ more) = (a', rest ++ more, r)) :
    Continues reading read stuck bs more where
  stop _ := by rw [h, left]
  resume needs free := by
    rw [h] at needs free
    exact absurd hr (not_or.mpr ⟨not_not.mpr needs, free⟩)

theorem waits (h : reading bs = (a', rest, r)) (hr : r.needs) (free : ¬stuck a')
    (taken : reading (bs ++ more) = read a' (rest ++ more)) :
    Continues reading read stuck bs more where
  stop hr' := by
    rw [h] at hr'
    exact absurd hr' (not_or.mpr ⟨not_not.mpr hr, free⟩)
  resume _ _ := by rw [h, taken]

theorem resumes (h : ∀ a bs more, Continues (read a) read stuck bs more) : Resumes read stuck where
  stop {a bs a' rest r} hread hr more := by
    have stop := (h a bs more).stop
    rw [hread] at stop
    exact stop hr
  resume {a bs a' rest r} hread hr free more := by
    have resume := (h a bs more).resume
    rw [hread] at resume
    exact resume hr free

end Continues

variable {Obj : Type} {bs rest more : List Byte} {n v : Nat}

theorem triple_inj {α β γ : Type} {a a' : α} {b b' : β} {c c' : γ} (h : (a, b, c) = (a', b', c')) :
    a = a' ∧ b = b' ∧ c = c' := by
  rw [Prod.mk.injEq, Prod.mk.injEq] at h
  exact h

theorem takeInt_append (h : takeInt n bs = some (v, rest)) (more : List Byte) :
    takeInt n (bs ++ more) = some (v, rest ++ more) := by
  unfold takeInt at h ⊢
  split at h
  · cases h
  · next hn =>
    obtain ⟨rfl, rfl⟩ := Prod.mk.inj (Option.some.inj h)
    have hn : n ≤ bs.length := Nat.le_of_not_lt hn
    rw [if_neg (by simp only [List.length_append]; omega), List.take_append_of_le_length hn,
      List.drop_append_of_le_length hn]

theorem takeInt_length (h : takeInt n bs = some (v, rest)) : rest.length + n = bs.length := by
  unfold takeInt at h
  split at h
  · cases h
  · obtain ⟨-, rfl⟩ := Prod.mk.inj (Option.some.inj h)
    rw [List.length_drop]
    omega

namespace StringArg

theorem readChars_stop {chars : List Byte} (h : n - chars.length ≤ bs.length) (more : List Byte) :
    readChars n chars (bs ++ more) =
      (⟨some n, chars ++ bs.take (n - chars.length)⟩, bs.drop (n - chars.length) ++ more,
        .done) := by
  simp only [readChars, List.take_append_of_le_length h, List.drop_append_of_le_length h,
    List.length_append]
  rw [if_pos (by omega)]

theorem readChars_resume {chars : List Byte} (h : bs.length < n - chars.length)
    (more : List Byte) : readChars n chars (bs ++ more) = readChars n (chars ++ bs) more := by
  have htake : (bs ++ more).take (n - chars.length) =
      bs ++ more.take (n - (chars ++ bs).length) := by
    rw [List.take_append, List.take_of_length_le (by omega), List.length_append,
      Nat.sub_add_eq]
  have hdrop : (bs ++ more).drop (n - chars.length) = more.drop (n - (chars ++ bs).length) := by
    rw [List.drop_append, List.drop_eq_nil_of_le (by omega), List.nil_append, List.length_append,
      Nat.sub_add_eq]
  simp only [readChars, htake, hdrop, List.append_assoc]
  have hmissing : n - (chars ++ bs).length = n - chars.length - bs.length := by
    rw [List.length_append, Nat.sub_add_eq]
  rw [hmissing, List.length_append]
  congr 2
  by_cases hle : n - chars.length - bs.length ≤ more.length
  · rw [if_pos hle, if_pos (by omega)]
  · rw [if_neg hle, if_neg (by omega), Nat.sub_add_eq]

theorem readChars_cases (n : Nat) (chars bs : List Byte) :
    (n - chars.length ≤ bs.length ∧ readChars n chars bs =
      (⟨some n, chars ++ bs.take (n - chars.length)⟩, bs.drop (n - chars.length), .done)) ∨
    (bs.length < n - chars.length ∧ readChars n chars bs =
      (⟨some n, chars ++ bs⟩, [], .need (n - chars.length - bs.length))) := by
  by_cases h : n - chars.length ≤ bs.length
  · exact .inl ⟨h, by simp [readChars, h]⟩
  · refine .inr ⟨by omega, ?_⟩
    simp only [readChars, h, if_false, List.take_of_length_le
      (by omega : bs.length ≤ n - chars.length),
      List.drop_eq_nil_of_le (by omega : bs.length ≤ n - chars.length)]

theorem readChars_continues (n : Nat) (chars bs more : List Byte) :
    Continues (readChars n chars) StringArg.read (fun _ => False) bs more := by
  rcases readChars_cases n chars bs with ⟨hle, heq⟩ | ⟨hlt, heq⟩
  · exact .ends heq (.inl id) (readChars_stop hle more)
  · exact .waits heq trivial id (readChars_resume hlt more)

theorem resumes : Resumes StringArg.read fun _ => False := by
  refine Continues.resumes fun a bs more => ?_
  cases hs : a.size with
  | some n =>
    have reading : a.read = readChars n a.chars := funext fun bs => by rw [StringArg.read, hs]
    exact reading ▸ readChars_continues n a.chars bs more
  | none =>
    cases ht : takeInt 4 bs with
    | none =>
      have here : a.read bs = (a, bs, .need 4) := by simp only [StringArg.read, hs, ht]
      exact .waits here trivial id rfl
    | some p =>
      have here : a.read bs = readChars p.1 [] p.2 := by simp only [StringArg.read, hs, ht]
      have there : a.read (bs ++ more) = readChars p.1 [] (p.2 ++ more) := by
        simp only [StringArg.read, hs, takeInt_append ht more]
      obtain ⟨stop, resume⟩ := readChars_continues p.1 [] p.2 more
      rw [← here, ← there] at stop resume
      exact ⟨stop, resume⟩

end StringArg

namespace ContentArg

def Stuck (a : ContentArg) : Prop := ∃ t, a.type = some t ∧ 5 ≤ t

variable {a a' : ContentArg} {r demand : ReadResult} {t : Nat}

theorem readData_type (ht : a.type = some t) (h : a.readData t demand bs = (a', rest, r)) :
    a'.type = some t := by
  unfold readData at h
  split at h
  · exact (Prod.mk.inj h).1 ▸ ht
  · exact (Prod.mk.inj h).1 ▸ ht
  · split at h <;> exact (Prod.mk.inj h).1 ▸ ht
  all_goals exact (Prod.mk.inj h).1 ▸ ht

theorem readData_continues (ht : a.type = some t) (demand : ReadResult) (bs more : List Byte) :
    Continues (a.readData t demand) ContentArg.read Stuck bs more := by
  have free : ∀ {a' : ContentArg} {rest r}, t < 5 → a.readData t demand bs = (a', rest, r) →
      ¬a'.Stuck := by
    rintro a' rest r hlt h ⟨t', ht', hle⟩
    cases (readData_type ht h).symm.trans ht'
    exact Nat.not_lt_of_le hle hlt
  match t with
  | 0 => exact .ends rfl (.inl id) rfl
  | 1 =>
    refine ⟨fun hr => ?_, fun hr _ => ?_⟩
    · have stops := StringArg.resumes.stop_eq
        (.inl (hr.resolve_right (free (by decide) rfl))) more
      simp only [readData, stops]
    · have resumes := StringArg.resumes.resume_eq hr id more
      simp only [readData, resumes, ContentArg.read, ht]
  | 2 =>
    cases hi : takeInt 4 bs with
    | none =>
      have here : a.readData 2 demand bs = (a, bs, .need 4) := by simp only [readData, hi]
      refine .waits here trivial (free (by decide) here) ?_
      simp only [ContentArg.read, ht]
      rfl
    | some p =>
      refine .ends (by simp only [readData, hi]; rfl) (.inl id) ?_
      simp only [readData, takeInt_append hi more]
  | 3 => exact .ends rfl (.inl id) rfl
  | 4 => exact .ends rfl (.inl id) rfl
  | t + 5 => exact .ends rfl (.inr ⟨_, ht, Nat.le_add_left 5 t⟩) rfl

theorem resumes : Resumes ContentArg.read Stuck := by
  refine Continues.resumes fun a bs more => ?_
  cases ht : a.type with
  | some t =>
    have reading : a.read = a.readData t .done := funext fun bs => by rw [ContentArg.read, ht]
    exact reading ▸ readData_continues ht .done bs more
  | none =>
    cases hn : takeInt 2 bs with
    | none =>
      have here : a.read bs = (a, bs, .need 2) := by simp only [ContentArg.read, ht, hn]
      refine .waits here trivial ?_ rfl
      rintro ⟨t, ht', -⟩
      cases ht.symm.trans ht'
    | some p =>
      have here : a.read bs = { a with type := some p.1 }.readData p.1 (.need 2) p.2 := by
        simp only [ContentArg.read, ht, hn]
      have there : a.read (bs ++ more) =
          { a with type := some p.1 }.readData p.1 (.need 2) (p.2 ++ more) := by
        simp only [ContentArg.read, ht, takeInt_append hn more]
      obtain ⟨stop, resume⟩ := readData_continues (a := { a with type := some p.1 }) rfl (.need 2)
        p.2 more
      rw [← here, ← there] at stop resume
      exact ⟨stop, resume⟩

end ContentArg

def Arg.Stuck : Arg Obj → Prop
  | .content a => a.Stuck
  | _ => False

theorem Arg.resumes (getObj : GetObj Obj) :
    Resumes (fun a bs => Arg.read getObj bs a) Arg.Stuck := by
  refine Continues.resumes fun a bs more => ?_
  cases a with
  | int type width value =>
    cases ht : takeInt width bs with
    | none =>
      refine .waits (r := .need width) (by simp only [Arg.read, ht]) trivial ?_ rfl
      exact id
    | some p =>
      exact .ends (by simp only [Arg.read, ht]; rfl) (.inl id)
        (by simp only [Arg.read, takeInt_append ht more])
  | object type value =>
    cases ht : takeInt 4 bs with
    | none =>
      refine .waits (r := .need 4) (by simp only [Arg.read, ht]) trivial ?_ rfl
      exact id
    | some p =>
      exact .ends (by simp only [Arg.read, ht]; rfl) (.inl id)
        (by simp only [Arg.read, takeInt_append ht more])
  | string value =>
    refine ⟨fun hr => ?_, fun hr _ => ?_⟩
    · simp only [Arg.read, StringArg.resumes.stop_eq hr more]
    · simp only [Arg.read, StringArg.resumes.resume_eq hr id more]
  | content value =>
    refine ⟨fun hr => ?_, fun hr free => ?_⟩
    · simp only [Arg.read, ContentArg.resumes.stop_eq hr more]
    · simp only [Arg.read, ContentArg.resumes.resume_eq hr free more]

namespace Command

variable {getObj : GetObj Obj} {c c' : Command Obj} {r r' : ReadResult}

def Stuck (c : Command Obj) : Prop := c.readingState = .readArg ∧ ∃ a, c.back = some a ∧ a.Stuck

theorem readCount_append (id : CommandT) (count : Nat) :
    c.readCount id count (rest ++ more) = (c.readCount id count rest).push more := by
  simp only [readCount]
  split
  · split <;> rfl
  · rfl

theorem readType_append (number : Nat) :
    c.readType number (rest ++ more) = (c.readType number rest).push more := by
  unfold readType
  split
  · rfl
  · split <;> rfl

theorem readBack_append (arg : Arg Obj) (r : ReadResult) :
    c.readBack arg (rest ++ more) r = (c.readBack arg rest r).push more := by
  unfold readBack
  split
  · simp only
    split <;> rfl
  · rfl

theorem readBack_stop {arg : Arg Obj} (h : c.readBack arg bs r = .stop c' rest r') :
    c' = { c with back := some arg } ∧ rest = bs ∧ r' = r ∧ r ≠ .done := by
  unfold readBack at h
  split at h
  · simp only at h
    split at h <;> cases h
  · next hr =>
    cases h
    exact ⟨rfl, rfl, rfl, hr⟩

theorem resumable (getObj : GetObj Obj) :
    Resumable (turn getObj) ReadResult.needs Stuck where
  settled := by
    intro c bs hs more
    have unstuck : c.readingState ≠ .readArg → ¬c.Stuck := fun h h' => h h'.1
    unfold turn at hs ⊢
    cases hstate : c.readingState with
    | readCmdId =>
      simp only [hstate] at hs ⊢
      cases bs with
      | nil => exact absurd trivial (hs.resolve_right (unstuck (by simp [hstate])))
      | cons b rest =>
        simp only [List.cons_append]
        split <;> rfl
    | readArgCount =>
      simp only [hstate] at hs ⊢
      cases bs with
      | nil => exact absurd trivial (hs.resolve_right (unstuck (by simp [hstate])))
      | cons b rest =>
        simp only [List.cons_append]
        cases c.id with
        | none => rfl
        | some id => exact readCount_append id b.toNat
    | readArgType =>
      simp only [hstate] at hs ⊢
      cases ht : takeInt 2 bs with
      | none =>
        rw [ht] at hs
        exact absurd trivial (hs.resolve_right (unstuck (by simp [hstate])))
      | some p =>
        simp only [takeInt_append ht more]
        exact readType_append p.1
    | readArg =>
      simp only [hstate] at hs ⊢
      cases hback : c.back with
      | none => rfl
      | some arg =>
        simp only [hback] at hs ⊢
        have harg : ¬(arg.read getObj bs).2.2.needs ∨ (arg.read getObj bs).1.Stuck := by
          by_contra hneeds
          rw [not_or, not_not] at hneeds
          obtain ⟨hneeds, hfree⟩ := hneeds
          unfold readBack at hs
          split at hs
          · next hr =>
            rw [hr] at hneeds
            exact hneeds
          · rcases hs with hs | ⟨-, a, ha, hstuck⟩
            · exact hs hneeds
            · exact hfree (Option.some.inj ha ▸ hstuck)
        have := (Arg.resumes getObj).stop_eq harg more
        simp only [this]
        exact readBack_append _ _
    | readed => rfl
  resume := by
    intro c bs c' rest r h hr free more
    cases hstate : c.readingState with
    | readCmdId =>
      cases bs with
      | nil =>
        simp only [turn, hstate] at h
        cases h
        rfl
      | cons b rest' =>
        simp only [turn, hstate] at h
        split at h <;> cases h
        exact absurd hr (by simp [ReadResult.needs])
    | readArgCount =>
      cases bs with
      | nil =>
        simp only [turn, hstate] at h
        cases h
        rfl
      | cons b rest' =>
        simp only [turn, hstate] at h
        cases hid : c.id with
        | none =>
          simp only [hid] at h
          cases h
          exact absurd hr (by simp [ReadResult.needs])
        | some id =>
          simp only [hid, readCount] at h
          split at h
          · split at h <;> cases h
          · cases h
            exact absurd hr (by simp [ReadResult.needs])
    | readArgType =>
      cases ht : takeInt 2 bs with
      | none =>
        simp only [turn, hstate, ht] at h
        cases h
        rfl
      | some p =>
        simp only [turn, hstate, ht, readType] at h
        split at h
        · cases h
          exact absurd hr (by simp [ReadResult.needs])
        · split at h
          · cases h
            exact absurd hr (by simp [ReadResult.needs])
          · cases h
    | readArg =>
      cases hback : c.back with
      | none =>
        simp only [turn, hstate, hback] at h
        cases h
        exact absurd hr (by simp [ReadResult.needs])
      | some arg =>
        simp only [turn, hstate, hback] at h
        obtain ⟨rfl, rfl, rfl, -⟩ := readBack_stop h
        have hfree : ¬(arg.read getObj bs).1.Stuck := fun hs => free ⟨hstate, _, rfl, hs⟩
        have := (Arg.resumes getObj).resume_eq hr hfree more
        obtain ⟨state, id, argsCount, args, back⟩ := c
        obtain rfl : state = .readArg := hstate
        obtain rfl : back = some arg := hback
        simp only [turn, this, readBack]
    | readed =>
      simp only [turn, hstate] at h
      cases h
      exact absurd hr (by simp [ReadResult.needs])

end Command

end ScCore.Rgp
