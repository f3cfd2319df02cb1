import ScCore.Rgp.Discipline
import ScCore.Rgp.Write
import Mathlib.Data.List.TakeDrop
import Mathlib.Tactic.Ring

/-!
# What is written is read

Reading the bytes of a command gives the command back, in whatever chunks they
come, if the command has arguments or cannot have any, and its values fit what is
written of them.
-/

namespace ScCore.Rgp

open Turn

/-! ## Integers -/

theorem bigEndian_foldl (bs : List Byte) (n : Nat) :
    bs.foldl (fun n b => n * 256 + b.toNat) n = n * 256 ^ bs.length + bigEndian bs := by
  induction bs generalizing n with
  | nil => simp [bigEndian]
  | cons b bs ih =>
    have hcons : bigEndian (b :: bs) = (0 * 256 + b.toNat) * 256 ^ bs.length + bigEndian bs :=
      ih (0 * 256 + b.toNat)
    rw [List.foldl_cons, ih, hcons, List.length_cons]
    ring

theorem bigEndian_cons (b : Byte) (bs : List Byte) :
    bigEndian (b :: bs) = b.toNat * 256 ^ bs.length + bigEndian bs := by
  rw [bigEndian, List.foldl_cons, bigEndian_foldl]
  simp

@[simp]
theorem length_intBytes (w : Nat) (v : Int) : (intBytes w v).length = w := by
  induction w with
  | zero => rfl
  | succ w ih => simp [intBytes, ih]

theorem bigEndian_intBytes (w : Nat) (v : Int) : (bigEndian (intBytes w v) : Int) = v % 256 ^
    w := by
  induction w with
  | zero => simp [intBytes, bigEndian, Int.emod_one]
  | succ w ih =>
    have hbyte : ((UInt8.ofNat (v / 256 ^ w % 256).toNat).toNat : Int) = v / 256 ^ w % 256 := by
      have h0 : 0 ≤ v / 256 ^ w % 256 := Int.emod_nonneg _ (by decide)
      have h1 : v / 256 ^ w % 256 < 256 := Int.emod_lt_of_pos _ (by decide)
      rw [UInt8.toNat_ofNat', Nat.mod_eq_of_lt (by omega)]
      exact Int.toNat_of_nonneg h0
    have hmod : v % 256 ^ (w + 1) = v / 256 ^ w % 256 * 256 ^ w + v % 256 ^ w := by
      have hdiv : v / (256 ^ w * 256) = v / 256 ^ w / 256 :=
        (Int.ediv_ediv_of_nonneg (Int.pow_nonneg (by decide))).symm
      rw [pow_succ, Int.emod_def, hdiv, Int.emod_def v, Int.emod_def (v / 256 ^ w)]
      ring
    rw [intBytes, bigEndian_cons, length_intBytes, hmod, ← ih, Nat.cast_add, Nat.cast_mul,
      Nat.cast_pow, Nat.cast_ofNat, hbyte]

theorem takeInt_intBytes (w : Nat) (v : Int) (rest : List Byte) :
    takeInt w (intBytes w v ++ rest) = some ((v % 256 ^ w).toNat, rest) := by
  have hlen := length_intBytes w v
  rw [takeInt, if_neg (by simp), List.take_left' hlen, List.drop_left' hlen, ← bigEndian_intBytes,
    Int.toNat_natCast]

theorem takeInt_natBytes {w n : Nat} (h : n < 256 ^ w) (rest : List Byte) :
    takeInt w (intBytes w n ++ rest) = some (n, rest) := by
  have hlt : (n : Int) < 256 ^ w := by exact_mod_cast h
  rw [takeInt_intBytes, Int.emod_eq_of_lt (Int.natCast_nonneg n) hlt, Int.toNat_natCast]

/-! ## Tables -/

theorem CommandT.ofByte_number (id : CommandT) : CommandT.all[id.number]? = some id := by
  cases id <;> rfl

theorem CommandT.number_lt (id : CommandT) : id.number < 256 := by
  cases id <;> decide

theorem ArgType.all_number (type : ArgType) : ArgType.all[type.number]? = some type := by
  cases type <;> rfl

theorem ArgType.number_lt (type : ArgType) : type.number < 256 ^ 2 := by
  cases type <;> decide

/-! ## Arguments -/

section Arguments

variable {Obj : Type} {getObj : GetObj Obj} {getUid : GetUid Obj} {rest : List Byte}

theorem toSigned_two_iff (v : Int) :
    toSigned 2 (v % 256 ^ 2).toNat = v ↔ -2 ^ 15 ≤ v ∧ v < 2 ^ 15 := by
  unfold toSigned
  split <;> omega

theorem toSigned_four_iff (v : Int) :
    toSigned 4 (v % 256 ^ 4).toNat = v ↔ -2 ^ 31 ≤ v ∧ v < 2 ^ 31 := by
  unfold toSigned
  split <;> omega

theorem StringArg.read_bytes (chars rest : List Byte) :
    ∃ a rest', StringArg.empty.read (intBytes 4 chars.length ++ (chars ++ rest)) =
        (a, rest', .done) ∧
      (a.chars = chars ↔ chars.length < 2 ^ 32) ∧ (a.chars = chars → rest' = rest) := by
  have hsize : takeInt 4 (intBytes 4 chars.length ++ (chars ++ rest)) =
      some (chars.length % 2 ^ 32, chars ++ rest) := by
    rw [takeInt_intBytes]
    rfl
  have hle : chars.length % 2 ^ 32 ≤ chars.length := Nat.mod_le _ _
  have hread : ∀ n, n ≤ chars.length → readChars n [] (chars ++ rest) =
      (⟨some n, chars.take n⟩, chars.drop n ++ rest, .done) := by
    intro n hn
    simp only [readChars, List.length_nil, Nat.sub_zero, List.nil_append, List.length_append]
    rw [if_pos (by omega), List.take_append_of_le_length hn, List.drop_append_of_le_length hn]
  refine ⟨⟨some (chars.length % 2 ^ 32), chars.take (chars.length % 2 ^ 32)⟩,
    chars.drop (chars.length % 2 ^ 32) ++ rest, ?_, ?_, fun h => ?_⟩
  · simp only [StringArg.read, empty, hsize, hread _ hle]
  · rw [List.take_eq_self_iff]
    omega
  · rw [List.drop_eq_nil_of_le ((List.take_eq_self_iff chars).mp h), List.nil_append]

/-- Reading the bytes of a value reads an argument of its type to the end; the value
comes back and the rest is left exactly when the value fits. -/
theorem Arg.read_bytes {a : ArgValue Obj} (valid : a.Valid getObj getUid) (rest : List Byte) :
    ∃ proto arg rest', argPrototype a.type = some proto ∧
      proto.read getObj (a.bytes getUid ++ rest) = (arg, rest', .done) ∧
      (arg.value? = some a ↔ a.Fits) ∧ (a.Fits → rest' = rest) := by
  cases a with
  | int type v =>
    have hproto : (argPrototype type : Option (Arg Obj)) = some (.int type type.size none) := by
      cases type <;> first | rfl | exact absurd valid id
    have hcast : castInt type (v % 256 ^ type.size).toNat = v ↔
        (ArgValue.int type v : ArgValue Obj).Fits := by
      cases type with
      | scRetval => exact toSigned_two_iff v
      | scInt16 => exact iff_of_true ((toSigned_two_iff v).mpr valid) trivial
      | scInt32 => exact iff_of_true ((toSigned_four_iff v).mpr valid) trivial
      | scBoolean => rcases valid with rfl | rfl <;> simp [castInt, ArgType.size, ArgValue.Fits]
      | scType | scWaitType | scConstraint =>
        obtain ⟨h0, h1⟩ := valid
        simp only [castInt, ArgType.size, ArgValue.Fits, iff_true]
        omega
      | _ => exact absurd valid id
    refine ⟨_, .int type type.size (some (castInt type (v % 256 ^ type.size).toNat)), rest, hproto,
      ?_, ?_, fun _ => rfl⟩
    · simp only [Arg.read, ArgValue.bytes, takeInt_intBytes]
    · rw [← hcast]
      simp [Arg.value?]
  | object type obj =>
    obtain ⟨htype, hlt, hobj⟩ := valid
    have hproto : (argPrototype type : Option (Arg Obj)) = some (.object type none) := by
      cases type <;> first | rfl | cases htype
    refine ⟨_, .object type (some obj), rest, hproto, ?_, by simp [Arg.value?, ArgValue.Fits],
      fun _ => rfl⟩
    simp only [Arg.read, ArgValue.bytes, takeInt_natBytes (w := 4) hlt, hobj]
  | string chars =>
    obtain ⟨arg, rest', hread, hchars, hrest⟩ := StringArg.read_bytes chars rest
    refine ⟨_, .string arg, rest', rfl, ?_, ?_, fun fits => hrest (hchars.mpr fits)⟩
    · simp only [Arg.read, ArgValue.bytes, List.append_assoc, hread]
    · simpa [Arg.value?, ArgValue.Fits] using hchars
  | content c =>
    have hread : ∀ (t : Nat) (data : List Byte), t < 5 →
        ContentArg.empty.read (intBytes 2 t ++ data) =
          ({ ContentArg.empty with type := some t } : ContentArg).readData t (.need 2) data := by
      intro t data ht
      rw [ContentArg.read]
      simp only [ContentArg.empty, takeInt_natBytes (w := 2) (show t < 256 ^ 2 by omega)]
    cases c with
    | empty =>
      refine ⟨_, .content ⟨some 0, StringArg.empty, none⟩, rest, rfl, ?_,
        iff_of_true rfl trivial, fun _ => rfl⟩
      simp only [Arg.read, ArgValue.bytes, ContentValue.bytes]
      rw [show (0 : Int) = (0 : Nat) from rfl, hread 0 rest (by decide)]
      rfl
    | string chars =>
      obtain ⟨arg, rest', hstr, hchars, hrest⟩ := StringArg.read_bytes chars rest
      have hlt : chars.length < 2 ^ 32 := Nat.lt_of_succ_lt valid
      refine ⟨_, .content ⟨some 1, arg, none⟩, rest', rfl, ?_, iff_of_true ?_ trivial,
        fun _ => hrest (hchars.mpr hlt)⟩
      · simp only [Arg.read, ArgValue.bytes, ContentValue.bytes, List.append_assoc]
        rw [show (1 : Int) = (1 : Nat) from rfl, hread 1 _ (by decide)]
        simp only [ContentArg.readData, ContentArg.empty, hstr]
      · simp [Arg.value?, ContentArg.value?, hchars.mpr hlt]
    | integer i =>
      refine ⟨_, .content ⟨some 2, StringArg.empty, some (toSigned 4 (i % 256 ^ 4).toNat)⟩, rest,
        rfl, ?_, ?_, fun _ => rfl⟩
      · simp only [Arg.read, ArgValue.bytes, ContentValue.bytes, List.append_assoc]
        rw [show (2 : Int) = (2 : Nat) from rfl, hread 2 _ (by decide)]
        simp only [ContentArg.readData, ContentArg.empty, takeInt_intBytes]
      · simpa [Arg.value?, ContentArg.value?, ArgValue.Fits] using toSigned_four_iff i

end Arguments

/-! ## Demands -/

section Demands

variable {Obj : Type} {getObj : GetObj Obj}

/-- What a result demands, if it does, is more than nothing. -/
def Demands (r : ReadResult) : Prop := ∀ n, r = .need n → 0 < n

theorem demands_need {n : Nat} (h : 0 < n) : Demands (.need n) := by
  rintro _ ⟨⟩
  exact h

theorem demands_of_not_needs {r : ReadResult} (h : ¬r.needs) : Demands r := by
  rintro n rfl
  exact absurd trivial h

theorem demands_string (a : StringArg) (bs : List Byte) : Demands (a.read bs).2.2 := by
  have chars : ∀ n chars bs, Demands (StringArg.readChars n chars bs).2.2 := by
    intro n chars bs
    rcases StringArg.readChars_cases n chars bs with ⟨-, h⟩ | ⟨hlt, h⟩
    · rw [h]
      exact demands_of_not_needs not_false
    · rw [h]
      exact demands_need (by omega)
  unfold StringArg.read
  split
  · exact chars _ _ _
  · split
    · exact demands_need (by decide)
    · exact chars _ _ _

theorem demands_content (a : ContentArg) (bs : List Byte) : Demands (a.read bs).2.2 := by
  have data : ∀ (a : ContentArg) t demand bs, Demands demand →
      Demands (a.readData t demand bs).2.2 := by
    intro a t demand bs hdemand
    unfold ContentArg.readData
    split
    · exact demands_of_not_needs not_false
    · exact demands_string _ _
    · split
      · exact demands_need (by decide)
      · exact demands_of_not_needs not_false
    · exact demands_of_not_needs not_false
    · exact demands_of_not_needs not_false
    · exact hdemand
  unfold ContentArg.read
  split
  · exact data _ _ _ _ (demands_of_not_needs not_false)
  · split
    · exact demands_need (by decide)
    · exact data _ _ _ _ (demands_need (by decide))

theorem demands_arg (a : Arg Obj) (bs : List Byte) : Demands (a.read getObj bs).2.2 := by
  have int : ∀ w, takeInt w bs = none → 0 < w := by
    intro w h
    unfold takeInt at h
    split at h
    · omega
    · cases h
  cases a with
  | int type width value =>
    simp only [Arg.read]
    split
    · next h => exact demands_need (int width h)
    · exact demands_of_not_needs not_false
  | object type value =>
    simp only [Arg.read]
    split
    · exact demands_need (by decide)
    · exact demands_of_not_needs not_false
  | string value => exact demands_string _ _
  | content value => exact demands_content _ _

end Demands

/-! ## Commands -/

namespace Command

variable {Obj : Type} {getObj : GetObj Obj} {getUid : GetUid Obj} {c c' : Command Obj}
  {bs rest : List Byte} {r : ReadResult}

theorem read_next (h : turn getObj c bs = .next c' rest) :
    c.read getObj bs = c'.read getObj rest := by
  obtain ⟨x, hx⟩ := read_total getObj c' rest
  rw [hx]
  refine read_of_run (k := 2 * rest.length + 2 + 1) ?_
  rw [run, h]
  exact hx

theorem read_stop (h : turn getObj c bs = .stop c' rest r) :
    c.read getObj bs = some (c', rest, r) := by
  rw [read, run, h]

def values (c : Command Obj) : List (Option (ArgValue Obj)) := c.args.map Arg.value?

theorem args_prefix_of_turn (getObj : GetObj Obj) (c : Command Obj) (bs : List Byte) :
    c.args <+: (after (turn getObj c bs)).args := by
  have same : ∀ {c' : Command Obj}, c'.args = c.args → c.args <+: c'.args :=
    fun h => h ▸ List.prefix_rfl
  unfold turn
  cases c.readingState with
  | readCmdId =>
    cases bs with
    | nil => exact same rfl
    | cons b rest =>
      simp only
      split <;> exact same rfl
  | readArgCount =>
    cases bs with
    | nil => exact same rfl
    | cons b rest =>
      cases c.id with
      | none => exact same rfl
      | some id =>
        simp only [readCount]
        split
        · split <;> exact same rfl
        · exact same rfl
  | readArgType =>
    cases takeInt 2 bs with
    | none => exact same rfl
    | some p =>
      simp only [readType]
      split
      · exact same rfl
      · split <;> exact same rfl
  | readArg =>
    cases c.back with
    | none => exact same rfl
    | some arg =>
      simp only [readBack]
      split
      · split <;> exact List.prefix_append _ _
      · exact same rfl
  | readed => exact same rfl

theorem args_prefix (h : c.read getObj bs = some (c', rest, r)) : c.args <+: c'.args := by
  have run_prefix : ∀ k (c : Command Obj) bs, run (turn getObj) k c bs = some (c', rest, r) →
      c.args <+: c'.args := by
    intro k
    induction k with
    | zero => intro c bs h; cases h
    | succ k ih =>
      intro c bs h
      have step := args_prefix_of_turn getObj c bs
      simp only [run] at h
      cases hturn : turn getObj c bs with
      | next c₁ rest₁ =>
        rw [hturn] at h step
        exact step.trans (ih c₁ rest₁ h)
      | stop c₁ rest₁ r₁ =>
        rw [hturn] at h step
        cases h
        exact step
  exact run_prefix _ c bs h

def push (c : Command Obj) (arg : Arg Obj) : Command Obj :=
  { c with
    args := c.args ++ [arg], back := none
    readingState := if c.args.length + 1 = c.argsCount then .readed else .readArgType }

theorem read_arg {a : ArgValue Obj} (valid : a.Valid getObj getUid)
    (hstate : c.readingState = .readArgType) (rest : List Byte) :
    ∃ arg rest', c.read getObj (intBytes 2 a.type.number ++ (a.bytes getUid ++ rest)) =
        (c.push arg).read getObj rest' ∧
      (arg.value? = some a ↔ a.Fits) ∧ (a.Fits → rest' = rest) := by
  obtain ⟨proto, arg, rest', hproto, hread, hvalue, hrest⟩ := Arg.read_bytes valid rest
  refine ⟨arg, rest', ?_, hvalue, hrest⟩
  have htype : turn getObj c (intBytes 2 a.type.number ++ (a.bytes getUid ++ rest)) =
      .next { c with readingState := .readArg, back := some proto } (a.bytes getUid ++ rest) := by
    simp only [turn, hstate, takeInt_natBytes (w := 2) a.type.number_lt, readType,
      ArgType.all_number, hproto]
  have harg : turn getObj { c with readingState := .readArg, back := some proto }
      (a.bytes getUid ++ rest) = .next (c.push arg) rest' := by
    simp only [turn, hread, readBack, push, List.length_append, List.length_singleton]
    split <;> rfl
  rw [read_next htype, read_next harg]

variable {as : List (ArgValue Obj)}

theorem read_args (hne : as ≠ []) (valid : ∀ a ∈ as, a.Valid getObj getUid)
    (fits : ∀ a ∈ as, a.Fits) (hstate : c.readingState = .readArgType)
    (hcount : c.argsCount = c.args.length + as.length) (rest : List Byte) :
    ∃ c', c.read getObj ((as.flatMap fun a => intBytes 2 a.type.number ++ a.bytes getUid) ++ rest) =
        some (c', rest, .done) ∧
      c'.id = c.id ∧ c'.values = c.values ++ as.map some := by
  induction as generalizing c with
  | nil => exact absurd rfl hne
  | cons a as ih =>
    obtain ⟨arg, rest', hread, hvalue, hrest⟩ := read_arg (valid a List.mem_cons_self) hstate
      ((as.flatMap fun a => intBytes 2 a.type.number ++ a.bytes getUid) ++ rest)
    obtain rfl := hrest (fits a List.mem_cons_self)
    have harg := hvalue.mpr (fits a List.mem_cons_self)
    have hvalues : (c.push arg).values = c.values ++ [some a] := by simp [values, push, harg]
    simp only [List.flatMap_cons, List.append_assoc] at hread ⊢
    rw [hread]
    by_cases hlast : as = []
    · subst hlast
      have hreaded : (c.push arg).readingState = .readed := by simp [push, hcount]
      refine ⟨c.push arg, ?_, rfl, by simp [hvalues]⟩
      exact read_stop (by simp [turn, hreaded])
    · have hlength : 0 < as.length := List.length_pos_iff.mpr hlast
      have hnext : (c.push arg).readingState = .readArgType := by
        simp only [push, hcount, List.length_cons]
        rw [if_neg (by omega)]
      obtain ⟨c', h, hid, hvalues'⟩ := ih hlast (fun a ha => valid a (List.mem_cons_of_mem _ ha))
        (fun a ha => fits a (List.mem_cons_of_mem _ ha)) hnext
        (by simp [push, hcount]; omega)
      exact ⟨c', h, hid, by rw [hvalues', hvalues]; simp⟩

theorem not_read_args (valid : ∀ a ∈ as, a.Valid getObj getUid)
    (misfit : ∃ a ∈ as, ¬a.Fits) (hstate : c.readingState = .readArgType)
    (hcount : c.argsCount = c.args.length + as.length) {more : List Byte}
    (h : c.read getObj
      ((as.flatMap fun a => intBytes 2 a.type.number ++ a.bytes getUid) ++ more) =
        some (c', rest, r)) :
    c'.values ≠ c.values ++ as.map some := by
  induction as generalizing c with
  | nil => simp at misfit
  | cons a as ih =>
    obtain ⟨arg, rest', hread, hvalue, hrest⟩ := read_arg (valid a List.mem_cons_self) hstate
      ((as.flatMap fun a => intBytes 2 a.type.number ++ a.bytes getUid) ++ more)
    simp only [List.flatMap_cons, List.append_assoc] at hread h
    rw [hread] at h
    intro hvalues
    obtain ⟨args, hargs⟩ := args_prefix h
    have hpush : c'.values = c.values ++ arg.value? :: args.map Arg.value? := by
      simp [values, ← hargs, push]
    rw [hpush, List.map_cons] at hvalues
    obtain ⟨harg, hvalues⟩ := List.cons.inj (List.append_cancel_left hvalues)
    have fits := hvalue.mp harg
    obtain ⟨a', hmem, hnot⟩ := misfit
    obtain rfl | hmem := List.mem_cons.mp hmem
    · exact hnot fits
    · obtain rfl := hrest fits
      have hlength : 0 < as.length := List.length_pos_of_mem hmem
      have hnext : (c.push arg).readingState = .readArgType := by
        simp only [push, hcount, List.length_cons]
        rw [if_neg (by omega)]
      refine ih (fun a ha => valid a (List.mem_cons_of_mem _ ha)) ⟨a', hmem, hnot⟩ hnext
        (by simp [push, hcount]; omega) h ?_
      rw [hpush, hvalues]
      simp [values, push, harg]

theorem read_head (getObj : GetObj Obj) {m : Message Obj} (hcount : m.args.length ≤ 255)
    (admits : (commandInfo m.id).admits m.args.length) (rest : List Byte) :
    ∃ c : Command Obj, Command.new.read getObj (intBytes 1 m.id.number ++
        (intBytes 1 m.args.length ++ rest)) = c.read getObj rest ∧
      c.id = some m.id ∧ c.argsCount = m.args.length ∧ c.args = [] ∧
      c.readingState =
        if (commandInfo m.id).argsCount = 0 ∧ (commandInfo m.id).maxRestCount = none then .readed
        else .readArgType := by
  have byte : ∀ n : Nat, n < 256 → intBytes 1 n = [UInt8.ofNat n] := by
    intro n hn
    simp only [intBytes, pow_zero, Int.ediv_one]
    congr 2
    omega
  have hid : turn getObj (Command.new : Command Obj) (UInt8.ofNat m.id.number ::
      (UInt8.ofNat m.args.length :: rest)) =
      .next { Command.new with readingState := .readArgCount, id := some m.id }
        (UInt8.ofNat m.args.length :: rest) := by
    have : CommandT.ofByte (UInt8.ofNat m.id.number) = some m.id := by
      rw [CommandT.ofByte, UInt8.toNat_ofNat', Nat.mod_eq_of_lt m.id.number_lt,
        CommandT.ofByte_number]
    simp only [turn, Command.new, this]
  have hargs : turn getObj { (Command.new : Command Obj) with
      readingState := .readArgCount, id := some m.id } (UInt8.ofNat m.args.length :: rest) =
      .next ⟨if (commandInfo m.id).argsCount = 0 ∧ (commandInfo m.id).maxRestCount = none
        then .readed else .readArgType, some m.id, m.args.length, [], none⟩ rest := by
    have : (UInt8.ofNat m.args.length).toNat = m.args.length := by
      rw [UInt8.toNat_ofNat', Nat.mod_eq_of_lt (by omega)]
    simp only [turn, readCount, this, admits, if_true]
    split <;> rfl
  rw [byte _ m.id.number_lt, byte _ (by omega), List.singleton_append, List.singleton_append,
    read_next hid, read_next hargs]
  exact ⟨_, rfl, rfl, rfl, rfl, rfl⟩

/-! ### In chunks -/

theorem read_need_pos {n : Nat} (h : c.read getObj bs = some (c', rest, .need n)) : 0 < n := by
  have turn_demands : ∀ (c : Command Obj) bs c' rest r, turn getObj c bs = .stop c' rest r →
      Demands r := by
    intro c bs c' rest r h
    have stop : ∀ {c₁ : Command Obj} {rest₁ r₁}, Demands r₁ →
        (Turn.stop c₁ rest₁ r₁ : Turn (Command Obj) Byte ReadResult) = .stop c' rest r →
        Demands r := by
      rintro c₁ rest₁ r₁ h ⟨⟩
      exact h
    unfold turn at h
    cases hstate : c.readingState with
    | readCmdId =>
      simp only [hstate] at h
      cases bs with
      | nil => exact stop (demands_need (by decide)) h
      | cons b rest =>
        simp only at h
        split at h
        · cases h
        · exact stop (by rintro _ ⟨⟩) h
    | readArgCount =>
      simp only [hstate] at h
      cases bs with
      | nil => exact stop (demands_need (by decide)) h
      | cons b rest =>
        cases hid : c.id with
        | none =>
          simp only [hid] at h
          exact stop (by rintro _ ⟨⟩) h
        | some id =>
          simp only [hid, readCount] at h
          split at h
          · split at h <;> cases h
          · exact stop (by rintro _ ⟨⟩) h
    | readArgType =>
      simp only [hstate] at h
      cases hn : takeInt 2 bs with
      | none =>
        rw [hn] at h
        exact stop (demands_need (by decide)) h
      | some p =>
        simp only [hn, readType] at h
        split at h
        · exact stop (by rintro _ ⟨⟩) h
        · split at h
          · exact stop (by rintro _ ⟨⟩) h
          · cases h
    | readArg =>
      simp only [hstate] at h
      cases hback : c.back with
      | none =>
        simp only [hback] at h
        exact stop (by rintro _ ⟨⟩) h
      | some arg =>
        simp only [hback] at h
        obtain ⟨-, -, rfl, -⟩ := readBack_stop h
        exact demands_arg arg bs
    | readed =>
      simp only [hstate] at h
      exact stop (by rintro _ ⟨⟩) h
  have run_demands : ∀ k (c : Command Obj) bs, run (turn getObj) k c bs = some (c', rest, .need n) →
      0 < n := by
    intro k
    induction k with
    | zero => intro c bs h; cases h
    | succ k ih =>
      intro c bs h
      simp only [run] at h
      cases hturn : turn getObj c bs with
      | next c₁ rest₁ =>
        rw [hturn] at h
        exact ih c₁ rest₁ h
      | stop c₁ rest₁ r₁ =>
        rw [hturn] at h
        cases h
        exact turn_demands _ _ _ _ _ hturn n rfl
  exact run_demands _ c bs h

theorem feed_done (hreaded : c.readingState = .readed) (buf : List Byte)
    (chunks : List (List Byte)) :
    feed getObj (c, buf, .done) chunks = some (c, buf ++ chunks.flatten, .done) := by
  induction chunks generalizing buf with
  | nil => simp [feed]
  | cons chunk chunks ih =>
    have hread : c.read getObj (buf ++ chunk) = some (c, buf ++ chunk, .done) :=
      read_stop (by simp [turn, hreaded])
    rw [feed, hread, Option.bind_some, ih, List.flatten_cons, List.append_assoc]

section Chunks

variable {bytes tail more buf : List Byte} {chunks : List (List Byte)} {c₀ : Command Obj}
  {n : Nat}

theorem read_strict (pre : List Byte) (whole : new.read getObj bytes = some (c, [], .done))
    (h : c₀.read getObj bs = some (c', rest, r)) (hpre : ∀ x, c₀.read getObj (bs ++ x) =
      new.read getObj (pre ++ x)) (hbytes : bytes = pre ++ tail) (htail : tail ≠ []) :
    (∃ n, r = .need n ∧ 0 < n) ∧ ∀ x, c'.read getObj (rest ++ x) = new.read getObj (pre ++ x) := by
  have unsettled : r.needs ∧ ¬c'.Stuck := by
    by_contra hsettled
    rw [not_and_or, not_not] at hsettled
    have hread := read_settled h hsettled tail
    rw [hpre, ← hbytes, whole] at hread
    have hnil : rest ++ tail = [] := (Prod.mk.inj (Prod.mk.inj (Option.some.inj hread)).2).1.symm
    exact htail (List.append_eq_nil_iff.mp hnil).2
  refine ⟨?_, fun x => ?_⟩
  · cases r with
    | need n => exact ⟨n, rfl, read_need_pos h⟩
    | _ => exact unsettled.1.elim
  · rw [← read_resume h unsettled.1 unsettled.2, hpre]

theorem feed_strict (pre : List Byte) (whole : new.read getObj bytes = some (c, [], .done))
    (hpre : ∀ x, c₀.read getObj (buf ++ x) = new.read getObj (pre ++ x))
    (hbytes : bytes = pre ++ (chunks.flatten ++ tail)) (htail : tail ≠ []) (hn : 0 < n) :
    ∃ c' buf' n', feed getObj (c₀, buf, .need n) chunks = some (c', buf', .need n') ∧ 0 < n' := by
  induction chunks generalizing c₀ buf pre n with
  | nil => exact ⟨c₀, buf, n, rfl, hn⟩
  | cons chunk chunks ih =>
    obtain ⟨⟨c₁, buf₁, r₁⟩, hread⟩ := read_total getObj c₀ (buf ++ chunk)
    have hpre₁ : ∀ x, c₀.read getObj (buf ++ chunk ++ x) = new.read getObj (pre ++ chunk ++ x) := by
      intro x
      rw [List.append_assoc, hpre, List.append_assoc]
    have hbytes₁ : bytes = pre ++ chunk ++ (chunks.flatten ++ tail) := by
      rw [hbytes, List.flatten_cons]
      simp only [List.append_assoc]
    obtain ⟨⟨n₁, rfl, hn₁⟩, hnext⟩ := read_strict (pre ++ chunk) whole hread hpre₁ hbytes₁
      (by simp [htail])
    rw [feed, hread, Option.bind_some]
    exact ih (pre ++ chunk) hnext hbytes₁ hn₁

theorem feed_complete (pre : List Byte)
    (whole : ∀ more, new.read getObj (bytes ++ more) = some (c, more, .done))
    (hreaded : c.readingState = .readed)
    (hpre : ∀ x, c₀.read getObj (buf ++ x) = new.read getObj (pre ++ x))
    (hbytes : bytes = pre ++ tail) (htail : tail ≠ []) (hchunks : chunks.flatten = tail ++ more) :
    feed getObj (c₀, buf, r) chunks = some (c, more, .done) := by
  induction chunks generalizing c₀ buf pre tail r with
  | nil => simp [htail] at hchunks
  | cons chunk chunks ih =>
    have complete : ∀ more₁, chunk = tail ++ more₁ → more = more₁ ++ chunks.flatten →
        feed getObj (c₀, buf, r) (chunk :: chunks) = some (c, more, .done) := by
      intro more₁ hchunk hmore
      have hread : c₀.read getObj (buf ++ chunk) = some (c, more₁, .done) := by
        rw [hpre, hchunk, ← List.append_assoc, ← hbytes, whole]
      rw [feed, hread, Option.bind_some, feed_done hreaded, hmore]
    rw [List.flatten_cons, List.append_eq_append_iff] at hchunks
    rcases hchunks with ⟨tail₁, htail₁, hrest⟩ | ⟨more₁, hchunk, hmore⟩
    · by_cases hnil : tail₁ = []
      · subst hnil
        exact complete [] (by rw [htail₁, List.append_nil, List.append_nil])
          (by simpa using hrest.symm)
      · obtain ⟨⟨c₁, buf₁, r₁⟩, hread⟩ := read_total getObj c₀ (buf ++ chunk)
        have hpre₁ : ∀ x, c₀.read getObj (buf ++ chunk ++ x) =
            new.read getObj (pre ++ chunk ++ x) := by
          intro x
          rw [List.append_assoc, hpre, List.append_assoc]
        have hbytes₁ : bytes = pre ++ chunk ++ tail₁ := by
          rw [hbytes, htail₁, List.append_assoc]
        have hwhole : new.read getObj bytes = some (c, [], .done) := by
          rw [← whole [], List.append_nil]
        obtain ⟨-, hnext⟩ := read_strict (pre ++ chunk) hwhole hread hpre₁ hbytes₁ hnil
        rw [feed, hread, Option.bind_some]
        exact ih (pre ++ chunk) hnext hbytes₁ hnil hrest
    · exact complete more₁ hchunk hmore

end Chunks

end Command

/-! ## Round trips -/

open Command

section RoundTrip

variable {Obj : Type} {getObj : GetObj Obj} {getUid : GetUid Obj} {m : Message Obj}

/-- In whatever chunks the bytes of a command come: as long as some are missing the
reader demands more, and when the last one is there it has read the same id and the
same values, and has left what comes after it. -/
def RoundTrips (getObj : GetObj Obj) (getUid : GetUid Obj) (m : Message Obj) : Prop :=
  ∀ chunks : List (List Byte),
    (∀ tail, tail ≠ [] → m.bytes getUid = chunks.flatten ++ tail →
      ∃ c buf n, feed getObj (new, [], .need 1) chunks = some (c, buf, .need n) ∧ 0 < n) ∧
    ∀ more, chunks.flatten = m.bytes getUid ++ more →
      ∃ c, feed getObj (new, [], .need 1) chunks = some (c, more, .done) ∧
        c.id = some m.id ∧ c.values = m.args.map some

def Message.Readable (m : Message Obj) : Prop :=
  (m.args ≠ [] ∨ (commandInfo m.id).maxRestCount = none) ∧ ∀ a ∈ m.args, a.Fits

theorem noArgs_iff (admits : (commandInfo m.id).admits m.args.length) :
    ((commandInfo m.id).argsCount = 0 ∧ (commandInfo m.id).maxRestCount = none) ↔
      m.args = [] ∧ (commandInfo m.id).maxRestCount = none := by
  refine and_congr_left fun hrest => ?_
  simp only [CommandInfo.admits, hrest, Bool.or_false, decide_eq_true_eq] at admits
  rw [← admits, List.length_eq_zero_iff]

section

variable (hcount : m.args.length ≤ 255) (admits : (commandInfo m.id).admits m.args.length)
  (valid : ∀ a ∈ m.args, a.Valid getObj getUid)
include hcount admits valid

theorem read_bytes (readable : m.Readable) :
    ∃ c : Command Obj, (∀ more, new.read getObj (m.bytes getUid ++ more) =
        some (c, more, .done)) ∧ c.id = some m.id ∧ c.values = m.args.map some := by
  obtain ⟨c₀, hhead, hid, hargsCount, hargs, hstate⟩ := read_head getObj hcount admits
    (m.args.flatMap fun a => intBytes 2 a.type.number ++ a.bytes getUid)
  have hvalues₀ : c₀.values = [] := by simp [values, hargs]
  suffices h : ∃ c, c₀.read getObj
      (m.args.flatMap fun a => intBytes 2 a.type.number ++ a.bytes getUid) = some (c, [], .done) ∧
        c.id = c₀.id ∧ c.values = c₀.values ++ m.args.map some by
    obtain ⟨c, hread, hid', hvalues⟩ := h
    refine ⟨c, fun more => ?_, hid'.trans hid, by rw [hvalues, hvalues₀, List.nil_append]⟩
    have hwhole : new.read getObj (m.bytes getUid) = some (c, [], .done) := by
      rw [Message.bytes, List.append_assoc, hhead, hread]
    exact read_settled hwhole (.inl not_needs_done) more
  by_cases hnil : m.args = []
  · have hrest := readable.1.resolve_left (not_not_intro hnil)
    rw [if_pos ((noArgs_iff admits).mpr ⟨hnil, hrest⟩)] at hstate
    rw [hnil]
    exact ⟨c₀, read_stop (by simp [turn, hstate]), rfl, by simp⟩
  · rw [if_neg (fun h => hnil ((noArgs_iff admits).mp h).1)] at hstate
    have := read_args hnil valid readable.2 hstate (by rw [hargsCount, hargs]; simp) []
    rwa [List.append_nil] at this

theorem roundTrips_of_readable (readable : m.Readable) : RoundTrips getObj getUid m := by
  obtain ⟨c, whole, hid, hvalues⟩ := read_bytes hcount admits valid readable
  have hne : m.bytes getUid ≠ [] := by simp [Message.bytes, intBytes]
  have hreaded : c.readingState = .readed := (run_spec (whole [])).1.mpr rfl
  refine fun chunks => ⟨fun tail htail hbytes => ?_, fun more hchunks => ?_⟩
  · refine feed_strict [] (c := c) ?_ (fun x => rfl) hbytes htail (by decide)
    rw [← whole [], List.append_nil]
  · exact ⟨c, feed_complete [] whole hreaded (fun x => rfl) rfl hne hchunks, hid, hvalues⟩

theorem readable_of_roundTrips (trips : RoundTrips getObj getUid m) : m.Readable := by
  obtain ⟨c, hfeed, -, hvalues⟩ := (trips [m.bytes getUid]).2 [] (by simp)
  obtain ⟨c₀, hhead, -, hargsCount, hargs, hstate⟩ := read_head getObj hcount admits
    (m.args.flatMap fun a => intBytes 2 a.type.number ++ a.bytes getUid)
  have hread : c₀.read getObj (m.args.flatMap fun a => intBytes 2 a.type.number ++ a.bytes getUid) =
      some (c, [], .done) := by
    rw [← hhead, ← List.append_assoc]
    obtain ⟨x, hx⟩ := Option.bind_eq_some_iff.mp hfeed
    obtain ⟨hx, rfl⟩ := And.imp_right Option.some.inj hx
    exact hx
  by_cases hready : m.args = [] ∧ (commandInfo m.id).maxRestCount = none
  · exact ⟨.inr hready.2, by simp [hready.1]⟩
  · rw [if_neg (fun h => hready ((noArgs_iff admits).mp h))] at hstate
    refine ⟨?_, ?_⟩
    · by_contra hnone
      rw [not_or, not_not] at hnone
      have hstop : c₀.read getObj [] = some (c₀, [], .need 2) :=
        read_stop (by simp [turn, hstate, takeInt])
      rw [hnone.1, List.flatMap_nil, hstop] at hread
      cases hread
    · by_contra hmisfit
      push Not at hmisfit
      rw [← List.append_nil (m.args.flatMap _)] at hread
      refine not_read_args valid hmisfit hstate (by rw [hargsCount, hargs]; simp) hread ?_
      rw [hvalues, values, hargs]
      simp

end

end RoundTrip

def oneObj : GetObj Unit := fun _ uid => if uid = 7 then some () else none

section Sessions

variable {W Obj Rep : Type}

/-- What is asked of the handlers: of a world and the values of a request, the next world and the
reply. -/
abbrev Service (W Obj Rep : Type) := CommandT → W → List (ArgValue Obj) → Option (W × Rep)

/-- The handlers answer where the service does, and let the connection be. -/
def Realizes (S : Server W Obj Rep) (service : Service W Obj Rep) : Prop :=
  ∀ (id : CommandT) (w : W) (args : List (ArgValue Obj)) (w' : W) (reply : Rep)
    (cmd : Command Obj), service id w args = some (w', reply) → cmd.id = some id →
    cmd.values = args.map some → S.handler id w cmd = (w', .ok reply, false)

/-- The client's side: every request with the chunks that its bytes come in, each sent after the
reply to the one before it. -/
inductive Calls (S : Server W Obj Rep) (getUid : W → GetUid Obj) (service : Service W Obj Rep) :
    W → List (Message Obj × List (List Byte)) → W → List Rep → Prop where
  | nil (w : W) : Calls S getUid service w [] w []
  | cons {w w₁ w' : W} {m : Message Obj} {chunks : List (List Byte)} {reply : Rep}
      {calls : List (Message Obj × List (List Byte))} {replies : List Rep} :
      m.args.length ≤ 255 → (commandInfo m.id).admits m.args.length →
      (∀ a ∈ m.args, a.Valid (S.getObj w) (getUid w)) → m.Readable → m.id.dispatched →
      chunks.flatten = m.bytes (getUid w) → (∀ chunk ∈ chunks, chunk ≠ []) →
      service m.id w m.args = some (w₁, reply) → Calls S getUid service w₁ calls w' replies →
      Calls S getUid service w ((m, chunks) :: calls) w' (reply :: replies)

variable {S : Server W Obj Rep} {getUid : W → GetUid Obj} {service : Service W Obj Rep}
  {w w' : W} {calls : List (Message Obj × List (List Byte))} {replies : List Rep}

/-- The requests in the order of `calls`, each with the reply that it got. -/
structure Transcript (c c' : Connection W Obj Rep) (calls : List (Message Obj × List (List Byte)))
    (replies : List Rep) (steps : List (Command Obj × Rep)) : Prop where
  log : c'.log = c.log ++
    steps.flatMap fun step => [.executed step.1, .replied (.ok step.2)]
  requests : steps.map (fun step => (step.1.id, step.1.values)) =
    calls.map fun call => (some call.1.id, call.1.args.map some)
  replied : steps.map Prod.snd = replies

theorem receive_append (c : Connection W Obj Rep) (chunks more : List (List Byte)) :
    Connection.receive S c (chunks ++ more) =
      (Connection.receive S c chunks).bind fun c => Connection.receive S c more := by
  induction chunks generalizing c with
  | nil => rfl
  | cons chunk chunks ih =>
    rw [List.cons_append, Connection.receive, Connection.receive, Option.bind_assoc]
    exact Option.bind_congr fun c _ => ih c

theorem receive_call {c : Connection W Obj Rep} {m : Message Obj} {chunks : List (List Byte)}
    {reply : Rep} (realizes : Realizes S service) (hopen : c.closed = false) (ready : c.Ready)
    (hcount : m.args.length ≤ 255) (admits : (commandInfo m.id).admits m.args.length)
    (valid : ∀ a ∈ m.args, a.Valid (S.getObj c.world) (getUid c.world)) (readable : m.Readable)
    (dispatched : m.id.dispatched) (bytes : chunks.flatten = m.bytes (getUid c.world))
    (hchunks : ∀ chunk ∈ chunks, chunk ≠ [])
    (hanswer : service m.id c.world m.args = some (w', reply)) :
    ∃ (cmd : Command Obj) (c' : Connection W Obj Rep), Connection.receive S c chunks = some c' ∧
      c'.world = w' ∧ c'.closed = false ∧ c'.Ready ∧ cmd.id = some m.id ∧
      cmd.values = m.args.map some ∧
      c'.log = c.log ++ [.executed cmd] ++ [.replied (.ok reply)] := by
  obtain ⟨cmd, whole, hid, hvalues⟩ := read_bytes hcount admits valid readable
  have hread : new.read (S.getObj c.world) chunks.flatten = some (cmd, [], .done) := by
    rw [bytes, ← whole [], List.append_nil]
  have hne : chunks ≠ [] := by
    rintro rfl
    simp [Message.bytes, intBytes] at bytes
  have handled := realizes m.id c.world m.args w' reply cmd hanswer hid hvalues
  refine ⟨cmd, _, (receive_done hopen ready hne hchunks hread).trans (executingResponse_ok hid
    dispatched (congrArg (fun r => r.2.1) handled)), ?_, ?_, ⟨rfl, fun _ h => ?_⟩, hid, hvalues,
    rfl⟩
  · exact congrArg Prod.fst handled
  · show (c.closed || (S.handler m.id c.world cmd).2.2) = false
    rw [hopen, handled, Bool.or_false]
  · cases h

theorem receive_calls {c : Connection W Obj Rep} (realizes : Realizes S service)
    (hopen : c.closed = false) (ready : c.Ready)
    (made : Calls S getUid service c.world calls w' replies) :
    ∃ (c' : Connection W Obj Rep) (steps : List (Command Obj × Rep)),
      Connection.receive S c (calls.flatMap Prod.snd) = some c' ∧ c'.world = w' ∧
      c'.closed = false ∧ c'.Ready ∧ Transcript c c' calls replies steps := by
  generalize hw : c.world = w at made
  induction made generalizing c with
  | nil w => exact ⟨c, [], rfl, hw, hopen, ready, ⟨(List.append_nil _).symm, rfl, rfl⟩⟩
  | @cons _ _ _ m chunks reply _ _ hcount admits valid readable sent bytes hchunks hanswer _ ih =>
    subst hw
    obtain ⟨cmd, c₁, hreceive, hworld, hopen₁, ready₁, hid, hvalues, hlog⟩ :=
      receive_call realizes hopen ready hcount admits valid readable sent bytes hchunks hanswer
    obtain ⟨c', steps, hrest, hworld', hopen', ready', transcript⟩ := ih hopen₁ ready₁ hworld
    refine ⟨c', (cmd, reply) :: steps, ?_, hworld', hopen', ready', ?_, ?_, ?_⟩
    · rw [List.flatMap_cons, receive_append, hreceive, Option.bind_some, hrest]
    · rw [transcript.log, hlog, List.flatMap_cons]
      simp only [List.append_assoc, List.cons_append, List.nil_append]
    · rw [List.map_cons, List.map_cons, transcript.requests, hid, hvalues]
    · rw [List.map_cons, transcript.replied]

end Sessions

def counting : Server Nat Unit Nat where
  getObj _ := oneObj
  handler _ n _ := (n + 1, .ok n, false)

def getIdtfs : List (Message Unit × List (List Byte)) :=
  [(⟨.getIdtf, [.object .scAddr (some ())]⟩, [[4, 1, 0, 3, 0, 0, 0, 7]]),
    (⟨.getIdtf, [.object .scAddr (some ())]⟩, [[4, 1, 0], [3, 0, 0, 0, 7]])]

end ScCore.Rgp
