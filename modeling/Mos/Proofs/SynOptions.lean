import Mos.Net.Frames

namespace Mos.Tcp
open List Option

open Frames (optionsInside)

inductive Setting
  | mss (value : UInt16)
  | scale (value : UInt8)
  deriving DecidableEq, Repr

def lastMss : List Setting → Option UInt16
  | [] => none
  | .mss value :: rest => (lastMss rest).or (some value)
  | .scale _ :: rest => lastMss rest

def lastScale : List Setting → Option UInt8
  | [] => none
  | .scale value :: rest => (lastScale rest).or (some value)
  | .mss _ :: rest => lastScale rest

@[simp] theorem lastMss_append (a b : List Setting) :
    lastMss (a ++ b) = (lastMss b).or (lastMss a) := by
  induction a with
  | nil => simp [lastMss]
  | cons x rest ih => cases x <;> simp [lastMss, ih]

@[simp] theorem lastScale_append (a b : List Setting) :
    lastScale (a ++ b) = (lastScale b).or (lastScale a) := by
  induction a with
  | nil => simp [lastScale]
  | cons x rest ih => cases x <;> simp [lastScale, ih]

/-! ### Well-formed options -/

inductive TcpOption
  | nop
  | mss (value : UInt16)
  | scale (value : UInt8)
  | other (kind : UInt8) (value : List UInt8) (unknown : 3 < kind) (short : value.length ≤ 253)

namespace TcpOption

def encode : TcpOption → List UInt8
  | nop => [1]
  | mss value => [2, 4, (value >>> 8).toUInt8, value.toUInt8]
  | scale value => [3, 3, value]
  | other kind value _ _ => kind :: UInt8.ofNat (value.length + 2) :: value

def settings : TcpOption → List Setting
  | mss value => [.mss value]
  | scale value => [.scale value]
  | _ => []

/-- The first byte tells the options apart, and the second how long an unknown one is. -/
theorem encode_inj {o p : TcpOption} {a b : List UInt8} (h : o.encode ++ a = p.encode ++ b) :
    o = p ∧ a = b := by
  cases o with
  | nop =>
    cases p with
    | other kind _ unknown _ =>
      simp only [encode, cons_append, List.cons.injEq] at h
      rw [← h.1] at unknown
      exact absurd unknown (by decide)
    | nop => exact ⟨rfl, by simpa [encode] using h⟩
    | _ => simp [encode] at h
  | mss v =>
    cases p with
    | mss w =>
      simp only [encode, cons_append, nil_append, List.cons.injEq, true_and] at h
      obtain ⟨hhigh, hlow, rfl⟩ := h
      refine ⟨congrArg mss ?_, rfl⟩
      have h1 := congrArg UInt8.toNat hhigh
      have h2 := congrArg UInt8.toNat hlow
      simp [Nat.shiftRight_eq_div_pow] at h1 h2
      have := v.toNat_lt
      have := w.toNat_lt
      exact UInt16.toNat_inj.mp (by omega)
    | other kind _ unknown _ =>
      simp only [encode, cons_append, List.cons.injEq] at h
      rw [← h.1] at unknown
      exact absurd unknown (by decide)
    | _ => simp [encode] at h
  | scale v =>
    cases p with
    | other kind _ unknown _ =>
      simp only [encode, cons_append, List.cons.injEq] at h
      rw [← h.1] at unknown
      exact absurd unknown (by decide)
    | scale w => simpa [encode] using h
    | _ => simp [encode] at h
  | other kind value unknown short =>
    cases p with
    | other kind' value' unknown' short' =>
      simp only [encode, cons_append, List.cons.injEq] at h
      obtain ⟨rfl, hlen, h⟩ := h
      have h1 := congrArg UInt8.toNat hlen
      simp only [UInt8.toNat_ofNat'] at h1
      obtain ⟨rfl, rfl⟩ := append_inj h (by omega)
      exact ⟨rfl, rfl⟩
    | _ =>
      simp only [encode, cons_append, List.cons.injEq] at h
      rw [h.1] at unknown
      exact absurd unknown (by decide)

theorem encode_head (o : TcpOption) : ∃ kind rest, o.encode = kind :: rest ∧ kind ≠ 0 := by
  cases o with
  | other kind value unknown short =>
    refine ⟨kind, _, rfl, ?_⟩
    rintro rfl
    exact absurd unknown (by decide)
  | _ => exact ⟨_, _, rfl, by decide⟩

end TcpOption

/-- Well-formed options are followed by the end of the segment's header, or by the end of
the list and padding, which can be anything. -/
inductive Ending : List UInt8 → Prop
  | bare : Ending []
  | padded (padding : List UInt8) : Ending (0 :: padding)

structure WellFormed (options : List UInt8) (opts : List TcpOption) (ending : List UInt8) : Prop where
  bytes : options = opts.flatMap TcpOption.encode ++ ending
  ending : Ending ending

variable {ending : List UInt8} {opts : List TcpOption} {items : List Setting} {α : Type}
    {a : Option α}

theorem Ending.not_option (h : Ending ending) (o : TcpOption)
    (rest : List UInt8) : ending ≠ o.encode ++ rest := by
  obtain ⟨kind, value, he, hk⟩ := o.encode_head
  rw [he]
  cases h with
  | bare => simp
  | padded padding =>
    intro h
    exact hk (List.cons.inj h).1.symm

theorem WellFormed.unique {options : List UInt8} {opts' : List TcpOption}
    {ending' : List UInt8} (h : WellFormed options opts ending)
    (h' : WellFormed options opts' ending') : opts = opts' ∧ ending = ending' := by
  induction opts generalizing options opts' with
  | nil =>
    cases opts' with
    | nil => exact ⟨rfl, by simpa using h.bytes.symm.trans h'.bytes⟩
    | cons o rest =>
      refine absurd (h.bytes.symm.trans h'.bytes) ?_
      simpa using h.ending.not_option o (rest.flatMap TcpOption.encode ++ ending')
  | cons o rest ih =>
    cases opts' with
    | nil =>
      refine absurd (h'.bytes.symm.trans h.bytes) ?_
      simpa using h'.ending.not_option o (rest.flatMap TcpOption.encode ++ ending)
    | cons o' rest' =>
      have heq := h.bytes.symm.trans h'.bytes
      simp only [flatMap_cons, append_assoc] at heq
      obtain ⟨rfl, hrest⟩ := TcpOption.encode_inj heq
      obtain ⟨rfl, rfl⟩ := ih ⟨rfl, h.ending⟩ ⟨hrest, h'.ending⟩
      exact ⟨rfl, rfl⟩

def settingsOf (opts : List TcpOption) : List Setting := opts.flatMap TcpOption.settings

/-! ### What the loop reads -/

/-- The option of this kind is followed by its length, which is not 0, and by the value
that is read of it. -/
def Complete (kind : UInt8) (rest : List UInt8) : Prop :=
  rest.getD 0 0 ≠ 0 ∧ (kind = 2 → 2 < rest.length) ∧ (kind = 3 → 1 < rest.length)

instance (kind : UInt8) (rest : List UInt8) : Decidable (Complete kind rest) :=
  inferInstanceAs (Decidable (_ ∧ _))

def wireValue (high low : UInt8) : UInt16 := ntohs (high.toUInt16 + low.toUInt16 <<< 8)

def optionSettings (kind : UInt8) (rest : List UInt8) : List Setting :=
  if kind = 2 then [.mss (wireValue (rest.getD 1 0) (rest.getD 2 0))]
  else if kind = 3 then [.scale (rest.getD 1 0)]
  else []

/-- The options met in a list of bytes behind `skip` of them, with an end of the list taken
for a no-op; `none` if one is not complete. -/
def readOptions : Nat → List UInt8 → Option (List Setting)
  | _, [] => some []
  | skip + 1, _ :: rest => readOptions skip rest
  | 0, kind :: rest =>
    if kind = 0 ∨ kind = 1 then readOptions 0 rest
    else if Complete kind rest then
      (readOptions ((rest.getD 0 0).toNat - 1) rest).map (optionSettings kind rest ++ ·)
    else none

theorem readOptions_drop (bytes : List UInt8) (skip : Nat) :
    readOptions skip bytes = readOptions 0 (bytes.drop skip) := by
  induction bytes generalizing skip with
  | nil => simp [readOptions]
  | cons b rest ih =>
    cases skip with
    | zero => rfl
    | succ skip => exact ih skip

theorem wireValue_toNat (high low : UInt8) :
    (wireValue high low).toNat = 256 * high.toNat + low.toNat := by
  have hh := high.toNat_lt
  have hl := low.toNat_lt
  have hload : (high.toUInt16 + low.toUInt16 <<< 8).toNat = high.toNat + 256 * low.toNat := by
    simp [Nat.shiftLeft_eq]
    omega
  have hlow : (high.toNat + 256 * low.toNat) <<< 8 % 2 ^ 16 = 2 ^ 8 * high.toNat := by
    omega
  have hhigh : (high.toNat + 256 * low.toNat) >>> 8 = low.toNat := by
    omega
  have h8 : (8 : UInt16).toNat % 16 = 8 := rfl
  rw [wireValue, ntohs, UInt16.toNat_or, UInt16.toNat_shiftLeft, UInt16.toNat_shiftRight, hload, h8,
    hlow, hhigh]
  exact (Nat.two_pow_add_eq_or_of_lt hl high.toNat).symm

theorem wireValue_bytes (v : UInt16) : wireValue (v >>> 8).toUInt8 v.toUInt8 = v := by
  apply UInt16.toNat_inj.mp
  have hv := v.toNat_lt
  rw [wireValue_toNat]
  simp [Nat.shiftRight_eq_div_pow]
  omega

theorem readOptions_encode (o : TcpOption) (rest : List UInt8) :
    readOptions 0 (o.encode ++ rest) = (readOptions 0 rest).map (o.settings ++ ·) := by
  cases o with
  | nop => simp [TcpOption.encode, TcpOption.settings, readOptions]
  | mss v =>
    simp [TcpOption.encode, TcpOption.settings, readOptions, Complete, optionSettings, wireValue_bytes]
  | scale v => simp [TcpOption.encode, TcpOption.settings, readOptions, Complete, optionSettings]
  | other kind value unknown short =>
    have hk (n : UInt8) (hn : ¬3 < n) : kind ≠ n := by
      rintro rfl
      exact hn unknown
    have hlen : (UInt8.ofNat (value.length + 2)).toNat = value.length + 2 := by
      rw [UInt8.toNat_ofNat']
      omega
    have hne : UInt8.ofNat (value.length + 2) ≠ 0 := by
      intro h
      rw [h] at hlen
      simp at hlen
    simp only [TcpOption.encode]
    generalize UInt8.ofNat (value.length + 2) = len at hlen hne
    simp [TcpOption.settings, readOptions, Complete, optionSettings, hk 0 (by decide),
      hk 1 (by decide), hk 2 (by decide), hk 3 (by decide), hne, hlen, readOptions_drop _ (value.length)]

theorem readOptions_options (opts : List TcpOption) (ending : List UInt8) :
    readOptions 0 (opts.flatMap TcpOption.encode ++ ending) =
      (readOptions 0 ending).map (settingsOf opts ++ ·) := by
  induction opts with
  | nil => simp [settingsOf]
  | cons o rest ih =>
    simp only [List.flatMap_cons, List.append_assoc, readOptions_encode, ih, settingsOf, Option.map_map]
    rfl

/-! ### The loop -/

def Starts (byte : Nat → UInt8) (options : List UInt8) : Prop :=
  ∀ i < options.length, byte i = options.getD i 0

def parsed (byte : Nat → UInt8) (len : Nat) (garbage : UInt16 × UInt8) : Option (UInt16 × UInt8) :=
  (parseSynOptions byte len garbage.1 garbage.2 len 0).map fun (rmms, scale) => (ntohs rmms, scale)

section Loop

variable {options : List UInt8} {byte : Nat → UInt8}

theorem drop_getD (options : List UInt8) (i k : Nat) :
    (options.drop (i + 1)).getD k 0 = options.getD (i + 1 + k) 0 := by
  simp [getD_eq_getElem?_getD]

variable {i rounds : Nat}

theorem Starts.drop (starts : Starts byte options) (hi : i < options.length) :
    options.drop i = byte i :: options.drop (i + 1) := by
  rw [drop_eq_getElem_cons hi, starts i hi, getD_eq_getElem _ _ hi]

theorem Starts.complete_iff (starts : Starts byte options) :
    Complete (byte i) (options.drop (i + 1)) ↔
      (i + 1 < options.length ∧ byte (i + 1) ≠ 0) ∧ (byte i = 2 → i + 3 < options.length) ∧
        (byte i = 3 → i + 2 < options.length) := by
  have hlen : (options.drop (i + 1)).length = options.length - (i + 1) := length_drop
  have hlength : (options.drop (i + 1)).getD 0 0 ≠ 0 ↔ i + 1 < options.length ∧ byte (i + 1) ≠ 0 := by
    rw [drop_getD, Nat.add_zero]
    by_cases hi : i + 1 < options.length
    · rw [starts _ hi, and_iff_right hi]
    · simp [hi]
  rw [Complete, hlength, hlen, show 2 < options.length - (i + 1) ↔ i + 3 < options.length by omega,
    show 1 < options.length - (i + 1) ↔ i + 2 < options.length by omega]

theorem Starts.locals (starts : Starts byte options)
    (h : Complete (byte i) (options.drop (i + 1))) (rmms : UInt16) (scale : UInt8) :
    ntohs (if byte i = 2 then (byte (i + 2)).toUInt16 + (byte (i + 3)).toUInt16 <<< 8 else rmms) =
        (lastMss (optionSettings (byte i) (options.drop (i + 1)))).getD (ntohs rmms) ∧
      (if byte i = 3 then byte (i + 2) else scale) =
        (lastScale (optionSettings (byte i) (options.drop (i + 1)))).getD scale := by
  obtain ⟨-, hmss, hscale⟩ := starts.complete_iff.mp h
  simp only [optionSettings, drop_getD]
  by_cases h2 : byte i = 2
  · have hlen := hmss h2
    rw [starts (i + 2) (by omega), starts (i + 3) hlen]
    simp [h2, lastMss, lastScale, wireValue, Nat.add_assoc]
  · by_cases h3 : byte i = 3
    · rw [starts (i + 2) (hscale h3)]
      simp [h3, lastMss, lastScale, Nat.add_assoc]
    · simp [h2, h3, lastMss, lastScale]

theorem Starts.next (starts : Starts byte options)
    (h : Complete (byte i) (options.drop (i + 1))) :
    readOptions (((options.drop (i + 1)).getD 0 0).toNat - 1) (options.drop (i + 1)) =
      readOptions 0 (options.drop (i + (byte (i + 1)).toNat)) := by
  obtain ⟨⟨hi, hne⟩, -⟩ := starts.complete_iff.mp h
  have hpos : (byte (i + 1)).toNat ≠ 0 := fun h0 => hne (UInt8.toNat_inj.mp h0)
  rw [readOptions_drop, drop_drop, drop_getD, Nat.add_zero, ← starts _ hi]
  congr 2
  omega

/-- Where the bytes read as complete options, the loop ends inside them with the last
values. The induction is on the rounds that are left. -/
theorem Starts.parse_some (starts : Starts byte options)
    (enough : options.length ≤ i + rounds) {items : List Setting}
    (h : readOptions 0 (options.drop i) = some items) (rmms : UInt16) (scale : UInt8) :
    optionsInside byte options.length options.length rounds i = true ∧
      ∃ r, parseSynOptions byte options.length rmms scale rounds i = some r ∧
        ntohs r.1 = (lastMss items).getD (ntohs rmms) ∧ r.2 = (lastScale items).getD scale := by
  induction rounds generalizing i items rmms scale with
  | zero =>
    rw [drop_eq_nil_of_le (by omega)] at h
    cases h
    exact ⟨rfl, _, rfl, rfl, rfl⟩
  | succ rounds ih =>
    by_cases hi : options.length ≤ i
    · rw [drop_eq_nil_of_le hi] at h
      cases h
      simp [optionsInside, parseSynOptions, hi, lastMss, lastScale]
    · rw [starts.drop (by omega)] at h
      simp only [readOptions] at h
      simp only [optionsInside, parseSynOptions, hi, if_false, show i < options.length by omega,
        decide_true, Bool.true_and]
      split at h
      · rename_i hnop
        simp only [hnop, if_true]
        exact ih (by omega) h rmms scale
      · rename_i hnop
        split at h
        · rename_i hcomplete
          obtain ⟨⟨hlen, hne⟩, hmss, hscale⟩ := starts.complete_iff.mp hcomplete
          have hpos : (byte (i + 1)).toNat ≠ 0 := fun h0 => hne (UInt8.toNat_inj.mp h0)
          rw [starts.next hcomplete, map_eq_some_iff] at h
          obtain ⟨rest, hrest, rfl⟩ := h
          obtain ⟨hin, r, hr, hm, hs⟩ := ih (by omega) hrest
            (if byte i = 2 then (byte (i + 2)).toUInt16 + (byte (i + 3)).toUInt16 <<< 8 else rmms)
            (if byte i = 3 then byte (i + 2) else scale)
          obtain ⟨hl, hl'⟩ := starts.locals hcomplete rmms scale
          rw [hl, ← getD_or, ← lastMss_append] at hm
          rw [hl', ← getD_or, ← lastScale_append] at hs
          refine ⟨?_, r, ?_, hm, hs⟩
          · simpa [hnop, hne, hlen, hin, or_iff_not_imp_left] using ⟨hmss, hscale⟩
          · simpa [hnop, hne] using hr
        · cases h

theorem Starts.parse_none (starts : Starts byte options)
    (enough : options.length ≤ i + rounds) (h : readOptions 0 (options.drop i) = none)
    (rmms : UInt16) (scale : UInt8)
    (inside : optionsInside byte options.length options.length rounds i = true) :
    parseSynOptions byte options.length rmms scale rounds i = none := by
  induction rounds generalizing i rmms scale with
  | zero =>
    rw [drop_eq_nil_of_le (by omega)] at h
    cases h
  | succ rounds ih =>
    by_cases hi : options.length ≤ i
    · rw [drop_eq_nil_of_le hi] at h
      cases h
    · rw [starts.drop (by omega)] at h
      simp only [readOptions] at h
      simp only [optionsInside, hi, if_false, show i < options.length by omega, decide_true,
        Bool.true_and] at inside
      simp only [parseSynOptions, hi, if_false]
      split at h
      · rename_i hnop
        simp only [hnop, if_true] at inside ⊢
        exact ih (by omega) h rmms scale inside
      · rename_i hnop
        simp only [hnop, if_false, Bool.and_eq_true, Bool.or_eq_true, bne_iff_ne, ne_eq,
          decide_eq_true_eq, beq_iff_eq] at inside ⊢
        obtain ⟨⟨⟨hmss, hscale⟩, hlen⟩, hrest⟩ := inside
        split
        · rfl
        · rename_i hne
          have hcomplete : Complete (byte i) (options.drop (i + 1)) :=
            starts.complete_iff.mpr ⟨⟨hlen, hne⟩, hmss.resolve_left ∘ not_not_intro,
              hscale.resolve_left ∘ not_not_intro⟩
          have hpos : (byte (i + 1)).toNat ≠ 0 := fun h0 => hne (UInt8.toNat_inj.mp h0)
          rw [if_pos hcomplete, starts.next hcomplete, map_eq_none_iff] at h
          exact ih (by omega) h _ _ (hrest.resolve_left hne)

end Loop

/-! ### The parser -/

/-- What is asked of the parser on these bytes, whatever is behind them in memory and in the
locals: it ends, it reads nothing behind them, and of well-formed options it returns the last
values, or those that were there before. -/
structure ParsesWell (options : List UInt8) : Prop where
  ends : ∀ byte garbage, Starts byte options → parsed byte options.length garbage ≠ none
  inside : ∀ byte, Starts byte options →
    optionsInside byte options.length options.length options.length 0 = true
  values : ∀ opts ending, WellFormed options opts ending →
    ∀ byte garbage (defaults : UInt16 × UInt8), Starts byte options →
      parsed byte options.length garbage = some ((lastMss (settingsOf opts)).getD defaults.1,
        (lastScale (settingsOf opts)).getD defaults.2)

/-- The bytes on which it does: every option is complete, well-formed ones have both an MSS and
a window scale, and what the padding would set is what they set. -/
structure PlainOptions (options : List UInt8) : Prop where
  complete : (readOptions 0 options).isSome
  present : ∀ opts ending, WellFormed options opts ending →
    (lastMss (settingsOf opts)).isSome ∧ (lastScale (settingsOf opts)).isSome
  padding : ∀ opts ending behind, WellFormed options opts ending →
    readOptions 0 ending = some behind →
      (∀ v, lastMss behind = some v → lastMss (settingsOf opts) = some v) ∧
      (∀ v, lastScale behind = some v → lastScale (settingsOf opts) = some v)

theorem Starts.parsed_some {options : List UInt8} {byte : Nat → UInt8} (starts : Starts byte options) (h : readOptions 0 options = some items) (garbage : UInt16 × UInt8) :
    parsed byte options.length garbage =
      some ((lastMss items).getD (ntohs garbage.1), (lastScale items).getD garbage.2) := by
  obtain ⟨-, r, hr, hm, hs⟩ := starts.parse_some (i := 0) (Nat.zero_add _).ge h garbage.1 garbage.2
  simp [parsed, hr, hm, hs]

theorem starts_getD (options : List UInt8) : Starts (fun i => options.getD i 0) options :=
  fun _ _ => rfl

theorem WellFormed.read {options : List UInt8}
    (h : WellFormed options opts ending) (hr : readOptions 0 options = some items) :
    ∃ behind, readOptions 0 ending = some behind ∧ items = settingsOf opts ++ behind := by
  rw [h.bytes, readOptions_options, map_eq_some_iff] at hr
  obtain ⟨behind, hb, rfl⟩ := hr
  exact ⟨behind, hb, rfl⟩

theorem isSome_of_getD {b c : α} (h : a.getD b = a.getD c) (hne : b ≠ c) :
    a.isSome := by
  cases a with
  | none => exact absurd h hne
  | some _ => rfl

theorem getD_of_isSome (h : a.isSome) (b c : α) : a.getD b = a.getD c := by
  cases a with
  | none => cases h
  | some _ => rfl

theorem eq_some_of_getD {b v : α} (h : a.isSome) (hv : v = a.getD b) :
    a = some v := by
  cases a with
  | none => cases h
  | some _ => rw [hv]; rfl

theorem or_eq_of_agrees {b : Option α} (h : ∀ v, a = some v → b = some v) : a.or b = b := by
  cases a with
  | none => rfl
  | some v => rw [h v rfl]; rfl

theorem ParsesWell.plain {options : List UInt8} (h : ParsesWell options) : PlainOptions options := by
  have starts := starts_getD options
  obtain ⟨items, hitems⟩ : ∃ items, readOptions 0 options = some items := by
    cases hr : readOptions 0 options with
    | none =>
      refine absurd ?_ (h.ends _ (0, 0) starts)
      have hnone := starts.parse_none (i := 0) (Nat.zero_add _).ge hr 0 0 (h.inside _ starts)
      exact map_eq_none_iff.mpr hnone
    | some items => exact ⟨items, rfl⟩
  have value {opts : List TcpOption} {ending : List UInt8} (hw : WellFormed options opts ending)
      (defaults : UInt16 × UInt8) :
      (lastMss items).getD (ntohs 0) = (lastMss (settingsOf opts)).getD defaults.1 ∧
        (lastScale items).getD 0 = (lastScale (settingsOf opts)).getD defaults.2 := by
    have heq := (starts.parsed_some hitems (0, 0)).symm.trans
      (h.values opts ending hw _ (0, 0) defaults starts)
    simpa using heq
  have present {opts : List TcpOption} {ending : List UInt8} (hw : WellFormed options opts ending) :
      (lastMss (settingsOf opts)).isSome ∧ (lastScale (settingsOf opts)).isSome := by
    have h0 := value hw (0, 0)
    have h1 := value hw (1, 1)
    exact ⟨isSome_of_getD (h0.1.symm.trans h1.1) (by decide),
      isSome_of_getD (h0.2.symm.trans h1.2) (by decide)⟩
  refine ⟨by simp [hitems], fun opts ending hw => present hw, ?_⟩
  intro opts ending behind hw hb
  obtain ⟨behind', hb', rfl⟩ := hw.read hitems
  obtain rfl := Option.some.inj (hb.symm.trans hb')
  have hv := value hw (0, 0)
  refine ⟨fun v hm => ?_, fun v hs => ?_⟩
  · exact eq_some_of_getD (present hw).1 (by simpa [hm] using hv.1)
  · exact eq_some_of_getD (present hw).2 (by simpa [hs] using hv.2)

theorem PlainOptions.parses {options : List UInt8} (h : PlainOptions options) : ParsesWell options := by
  obtain ⟨items, hitems⟩ := isSome_iff_exists.mp h.complete
  refine ⟨fun byte garbage starts => ?_, fun byte starts => ?_, ?_⟩
  · simp [starts.parsed_some hitems]
  · exact (starts.parse_some (i := 0) (Nat.zero_add _).ge hitems 0 0).1
  · intro opts ending hw byte garbage defaults starts
    obtain ⟨behind, hb, rfl⟩ := hw.read hitems
    obtain ⟨hm, hs⟩ := h.padding opts ending behind hw hb
    obtain ⟨hm', hs'⟩ := h.present opts ending hw
    rw [starts.parsed_some hitems, lastMss_append, lastScale_append, or_eq_of_agrees hm,
      or_eq_of_agrees hs, getD_of_isSome hm' _ defaults.1, getD_of_isSome hs' _ defaults.2]

theorem wellFormed_build (s : Sock) :
    WellFormed (tcpBuildSynOptions s) [.mss s.sndMss.toUInt16, .scale 0] [0] := by
  refine ⟨?_, .padded []⟩
  have hhigh : (s.sndMss >>> 8).toUInt8 = (s.sndMss.toUInt16 >>> 8).toUInt8 := by
    apply UInt8.toNat_inj.mp
    simp [Nat.shiftRight_eq_div_pow]
    omega
  simp [tcpBuildSynOptions, tcpSetOptionValue, TcpOption.encode, hhigh]

theorem plainOptions_build (s : Sock) : PlainOptions (tcpBuildSynOptions s) := by
  have hw := wellFormed_build s
  have hread : readOptions 0 [0] = some [] := rfl
  refine ⟨?_, ?_, ?_⟩
  · rfl
  · intro opts ending h
    obtain ⟨rfl, -⟩ := h.unique hw
    exact ⟨rfl, rfl⟩
  · intro opts ending behind h hb
    obtain ⟨-, rfl⟩ := h.unique hw
    obtain rfl := Option.some.inj (hread.symm.trans hb)
    exact ⟨nofun, nofun⟩

/-- The parser does what is asked of it exactly on plain options; those of
`tcp_build_syn_options` are, and the parser gives the MSS and the scale back. -/
theorem options_parsed_iff (options : List UInt8) (s : Sock) :
    (ParsesWell options ↔ PlainOptions options) ∧ ParsesWell (tcpBuildSynOptions s) ∧
      ∀ byte garbage, Starts byte (tcpBuildSynOptions s) →
        parsed byte (tcpBuildSynOptions s).length garbage = some (s.sndMss.toUInt16, 0) := by
  have hbuild := (plainOptions_build s).parses
  refine ⟨⟨ParsesWell.plain, PlainOptions.parses⟩, hbuild, ?_⟩
  intro byte garbage starts
  exact hbuild.values _ _ (wellFormed_build s) byte garbage (0, 0) starts

/-- An option of length 0, an option cut off by the end of the header, options without a window
scale, and a second MSS behind the end of the list. -/
theorem options_misread : ¬ParsesWell [4, 0, 0, 0] ∧ ¬ParsesWell [1, 1, 1, 2] ∧
    ¬ParsesWell [2, 4, 5, 180] ∧ ¬ParsesWell [2, 4, 5, 180, 3, 3, 0, 0, 2, 4, 0, 1] := by
  refine ⟨fun h => ?_, fun h => ?_, fun h => ?_, fun h => ?_⟩
  · exact h.ends _ (0, 0) (starts_getD _) (by decide)
  · exact absurd (h.inside _ (starts_getD _)) (by decide)
  · have hw : WellFormed [2, 4, 5, 180] [.mss 1460] [] := ⟨by decide, .bare⟩
    exact absurd (h.values _ _ hw _ (0, 0) (0, 7) (starts_getD _)) (by decide)
  · have hw : WellFormed [2, 4, 5, 180, 3, 3, 0, 0, 2, 4, 0, 1] [.mss 1460, .scale 0] [0, 2, 4, 0, 1] :=
      ⟨by decide, .padded _⟩
    exact absurd (h.values _ _ hw _ (0, 0) (0, 0) (starts_getD _)) (by decide)

end Mos.Tcp
