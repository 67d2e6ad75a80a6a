import Bg3le.Net.SyncVars
import Mathlib.Algebra.Order.BigOperators.Group.List

/-!
# What the split of a variable sync guarantees

The parts are the variables in order, none lost and none twice. The estimate of each variable
dominates its encoding, so what a part holds while it may still grow stays below the budget, and
any variable of three quarters of a packet fits behind it. Only a larger one can take the part
past the packet limit.
-/

namespace Bg3le
namespace Net

/-- The bytes a variable takes in the body of its packet. -/
def entrySize (v : NetUserVar) : ℕ := (Pb.bytesField 1 (encodeVar v)).length

def bodySize (part : List NetUserVar) : ℕ := (part.map entrySize).sum

/-- The budget a part has used. -/
def used (part : List NetUserVar) : ℕ := (part.map estimate).sum

/-- The largest body of a packet within `kMaxPayload`: a key and a three-byte length go first. -/
def kMaxBody : ℕ := 0xffffb

/-- `pre` is a row of full parts: each is within the budget but for its last variable. -/
inductive PartStart : List NetUserVar → Prop
  | nil : PartStart []
  | next {pre part : List NetUserVar} {v : NetUserVar} (hpre : PartStart pre)
      (hbelow : used part < kSyncBudget) (hfull : kSyncBudget ≤ used (part ++ [v])) :
      PartStart (pre ++ (part ++ [v]))

/-- Every variable that joins earlier ones of a part fits beside them in a packet. -/
def JoinsFit (vars : List NetUserVar) : Prop :=
  ∀ pre part v post, vars = pre ++ (part ++ v :: post) → PartStart pre → part ≠ [] →
    used part < kSyncBudget → bodySize (part ++ [v]) ≤ kMaxBody

/-- What is left for a variable behind any part that may still grow. -/
def kMaxJoining : ℕ := kMaxBody - (kSyncBudget - 1)

/-- The variables since the estimates last came to the budget. -/
def openPart (vars : List NetUserVar) : List NetUserVar :=
  vars.foldl (fun part v => if used part < kSyncBudget then part ++ [v] else [v]) []

/-- A variable that is larger than what is always left either starts a part, or takes no more than
the part's variables before it leave. -/
def OvershootFits (vars : List NetUserVar) : Prop :=
  ∀ pre v post, vars = pre ++ v :: post → kMaxJoining < entrySize v →
    kSyncBudget ≤ used (openPart pre) ∨ entrySize v ≤ kMaxBody - bodySize (openPart pre)

@[simp] theorem used_nil : used [] = 0 := rfl

@[simp] theorem used_cons (v : NetUserVar) (part : List NetUserVar) :
    used (v :: part) = estimate v + used part := by simp [used]

@[simp] theorem used_append (p q : List NetUserVar) : used (p ++ q) = used p + used q := by
  simp [used]

@[simp] theorem bodySize_append (p q : List NetUserVar) :
    bodySize (p ++ q) = bodySize p + bodySize q := by simp [bodySize]

/-! ## Sizes -/

theorem length_strField_le (field : UInt64) (v : Bytes) :
    (strField field v).length ≤ (Pb.key field 2).length + 10 + v.length := by
  rw [strField]
  split_ifs
  · simp
  · rw [Pb.length_bytesField]
    have := Pb.length_varint_le (UInt64.ofNat v.length)
    omega

theorem length_encodeValue_le (v : NetUserVar) : (encodeValue v).length ≤ 11 + v.s.length := by
  have hs := Pb.length_varint_le (UInt64.ofNat v.s.length)
  have hi := Pb.length_varint_le v.i
  have hb := Pb.length_varint_le (if v.b then 1 else 0)
  have h4 : (Pb.key 4 0).length = 1 := by decide
  have h5 : (Pb.key 5 1).length = 1 := by decide
  have h6 : (Pb.key 6 2).length = 1 := by decide
  have h7 : (Pb.key 7 2).length = 1 := by decide
  have h9 : (Pb.key 9 0).length = 1 := by decide
  have h10 : (Pb.key 10 2).length = 1 := by decide
  rw [encodeValue]
  cases v.kind <;> simp only [List.length_append, Pb.length_bytesField, List.length_nil,
    LittleEndian.length_encode] <;> omega

/-- The estimate of a variable is never below what it takes. -/
theorem entrySize_le_estimate (v : NetUserVar) : entrySize v ≤ estimate v := by
  have h1 : (Pb.key 1 0).length = 1 := by decide
  have h2 : (Pb.key 2 0).length = 1 := by decide
  have h3 : (Pb.key 3 2).length = 1 := by decide
  have h8 : (Pb.key 8 0).length = 1 := by decide
  have h1' : (Pb.key 1 2).length = 1 := by decide
  have hlo := Pb.length_uintField_le 1 ((parseGuid v.guid).getD (0, 0)).1
  have hhi := Pb.length_uintField_le 2 ((parseGuid v.guid).getD (0, 0)).2
  have hkey := length_strField_le 3 v.key
  have hval := length_encodeValue_le v
  have hmod : (Pb.uintField 8 (if v.module then 1 else 0)).length ≤ 2 := by
    cases v.module <;> decide
  have hlen := Pb.length_varint_le (UInt64.ofNat (encodeVar v).length)
  rw [entrySize, estimate, Pb.length_bytesField]
  simp only [encodeVar, List.length_append] at hlen ⊢
  omega

theorem bodySize_le_used (part : List NetUserVar) : bodySize part ≤ used part :=
  List.sum_le_sum fun v _ => entrySize_le_estimate v

/-- A packet is within the limit exactly when its body is. -/
theorem length_encodePart_le_iff (part : List NetUserVar) :
    (encodePart part).length ≤ kMaxPayload ↔ bodySize part ≤ kMaxBody := by
  have hbody : (encodeBody { kind := .userVars, vars := part }).length = bodySize part := by
    simp only [encodeBody, List.length_flatMap, bodySize]
    rfl
  have hkey : (Pb.key WrapperField.userVars.number 2).length = 1 := by decide
  rw [encodePart, encode, Pb.length_bytesField, hbody, hkey, kMaxPayload, kMaxBody, Pb.varint]
  by_cases hbig : bodySize part ≤ 0xfffff
  · have hnat : (UInt64.ofNat (bodySize part)).toNat = bodySize part :=
      UInt64.toNat_ofNat_of_lt' (by simp [UInt64.size]; omega)
    have hle : (Pb.varintLoop 9 (UInt64.ofNat (bodySize part))).length ≤ 3 :=
      Pb.length_varintLoop_le_of_lt (by rw [hnat]; omega)
    by_cases hsmall : bodySize part ≤ 0xffffb
    · omega
    · have : 3 ≤ (Pb.varintLoop 9 (UInt64.ofNat (bodySize part))).length :=
        Pb.le_length_varintLoop (k := 2) (by norm_num) (by rw [hnat]; omega)
      omega
  · omega

/-! ## The loops -/

/-- While the budget allows, the inner loop takes what comes. -/
theorem fillPart_append (part : List NetUserVar) (budget : ℕ) (q : List NetUserVar) (v : NetUserVar)
    (post : List NetUserVar) (h : budget + used q < kSyncBudget) :
    fillPart part budget (q ++ v :: post)
      = fillPart (part ++ q ++ [v]) (budget + used (q ++ [v])) post := by
  induction q generalizing part budget with
  | nil =>
    have hb : budget < kSyncBudget := by simpa using h
    simp [fillPart, hb]
  | cons w q ih =>
    rw [used_cons] at h
    have hb : budget < kSyncBudget := by omega
    rw [List.cons_append, fillPart, if_pos (.inr hb), ih _ _ (by omega)]
    simp [Nat.add_assoc]

/-- A part past its budget takes nothing more. -/
theorem fillPart_full {part : List NetUserVar} {budget : ℕ} (hpart : part ≠ [])
    (h : kSyncBudget ≤ budget) (rest : List NetUserVar) :
    fillPart part budget rest = (part, rest) := by
  cases rest with
  | nil => rfl
  | cons v rest => rw [fillPart, if_neg (by simp [hpart]; omega)]

/-- A part only grows. -/
theorem fillPart_fst (part : List NetUserVar) (budget : ℕ) (rest : List NetUserVar) :
    ∃ more, (fillPart part budget rest).1 = part ++ more := by
  induction rest generalizing part budget with
  | nil => exact ⟨[], by simp [fillPart]⟩
  | cons v rest ih =>
    rw [fillPart]
    split_ifs
    · obtain ⟨more, h⟩ := ih (part ++ [v]) (budget + estimate v)
      exact ⟨v :: more, by simp [h]⟩
    · exact ⟨[], by simp⟩

/-- The inner loop, from the start of a part: the part is never empty, is below the budget before
its last variable, and reaches it unless nothing is left. -/
theorem fillPart_spec (v : NetUserVar) (vars : List NetUserVar) :
    ∃ q w rest, v :: vars = q ++ w :: rest ∧ fillPart [] 0 (v :: vars) = (q ++ [w], rest) ∧
      used q < kSyncBudget ∧ (rest = [] ∨ kSyncBudget ≤ used (q ++ [w])) := by
  -- the longest beginning whose estimates stay below the budget, generalised over what is taken
  suffices h : ∀ (rest q : List NetUserVar) (w : NetUserVar), used q < kSyncBudget →
      ∃ q' w' rest', q ++ w :: rest = q' ++ w' :: rest' ∧
        fillPart (q ++ [w]) (used (q ++ [w])) rest = (q' ++ [w'], rest') ∧
        used q' < kSyncBudget ∧ (rest' = [] ∨ kSyncBudget ≤ used (q' ++ [w'])) by
    obtain ⟨q, w, rest, h1, h2, h3⟩ := h vars [] v (by decide)
    exact ⟨q, w, rest, h1, by simpa [fillPart] using h2, h3⟩
  intro rest
  induction rest with
  | nil => exact fun q w hq => ⟨q, w, [], rfl, rfl, hq, .inl rfl⟩
  | cons x rest ih =>
    intro q w hq
    by_cases hfull : kSyncBudget ≤ used (q ++ [w])
    · exact ⟨q, w, x :: rest, rfl, fillPart_full (by simp) hfull _, hq, .inr hfull⟩
    · obtain ⟨q', w', rest', h1, h2, h3⟩ := ih (q ++ [w]) x (by omega)
      refine ⟨q', w', rest', by simpa using h1, ?_, h3⟩
      rw [fillPart, if_pos (.inr (by omega)), ← h2]
      simp [Nat.add_assoc]

theorem splitLoop_of_le {fuel : ℕ} {vars : List NetUserVar} (h : vars.length ≤ fuel) :
    splitLoop fuel vars = splitVars vars := by
  induction fuel using Nat.strong_induction_on generalizing vars with
  | _ fuel ih =>
    cases vars with
    | nil => cases fuel <;> rfl
    | cons v vars =>
      obtain ⟨fuel, rfl⟩ : ∃ k, fuel = k + 1 := ⟨fuel - 1, by simp at h; omega⟩
      obtain ⟨q, w, rest, hsplit, hfill, -⟩ := fillPart_spec v vars
      have hlen : rest.length ≤ vars.length := by
        have := congrArg List.length hsplit
        simp at this
        omega
      simp only [List.length_cons, Nat.add_le_add_iff_right] at h
      rw [splitVars, List.length_cons, splitLoop, splitLoop, hfill]
      simp only
      rw [ih fuel (by omega) (by omega)]
      by_cases heq : vars.length = fuel
      · rw [heq, ih fuel (by omega) (by omega)]
      · rw [ih vars.length (by omega) hlen]

/-- One round of the outer loop. -/
theorem splitVars_cons {v : NetUserVar} {vars part rest : List NetUserVar}
    (h : fillPart [] 0 (v :: vars) = (part, rest)) :
    splitVars (v :: vars) = part :: splitVars rest := by
  obtain ⟨q, w, rest', hsplit, hfill, -⟩ := fillPart_spec v vars
  obtain ⟨-, rfl⟩ : part = q ++ [w] ∧ rest = rest' := by simpa [h] using hfill
  have hlen : rest.length ≤ vars.length := by
    have := congrArg List.length hsplit
    simp at this
    omega
  rw [splitVars, List.length_cons, splitLoop, h]
  simp only
  rw [splitLoop_of_le hlen]

/-- Rounds that fill their parts leave the loop at the start of a part. -/
theorem splitVars_partStart {pre : List NetUserVar} (h : PartStart pre) :
    ∃ parts, ∀ rest, splitVars (pre ++ rest) = parts ++ splitVars rest := by
  induction h with
  | nil => exact ⟨[], fun rest => rfl⟩
  | @next pre part v _ hbelow hfull ih =>
    obtain ⟨parts, ih⟩ := ih
    refine ⟨parts ++ [part ++ [v]], fun rest => ?_⟩
    have hfill : fillPart [] 0 (part ++ v :: rest) = (part ++ [v], rest) := by
      rw [fillPart_append [] 0 part v rest (by omega), List.nil_append,
        fillPart_full (by simp) (by omega)]
    obtain ⟨x, xs, hx⟩ := List.exists_cons_of_ne_nil (l := part ++ v :: rest) (by simp)
    rw [List.append_assoc, ih, List.append_assoc, List.append_assoc, List.singleton_append, hx,
      splitVars_cons (hx ▸ hfill), List.singleton_append]

/-- The parts are the variables, in order. -/
theorem flatten_splitVars (vars : List NetUserVar) : (splitVars vars).flatten = vars := by
  induction h : vars.length using Nat.strong_induction_on generalizing vars with
  | _ n ih =>
    cases vars with
    | nil => rfl
    | cons v vars =>
      obtain ⟨q, w, rest, hsplit, hfill, -⟩ := fillPart_spec v vars
      have hlen := congrArg List.length hsplit
      simp at hlen h
      rw [splitVars_cons hfill, List.flatten_cons, ih rest.length (by omega) rest rfl, hsplit]
      simp

/-! ## When every part fits its packet -/

/-- What `l_net_sync_vars` is to do: the parts are the variables in order, each is within the
packet limit, and `Serialize` writes each whole. -/
def SyncsAll (vars : List NetUserVar) : Prop :=
  (splitVars vars).flatten = vars ∧
    ∀ part ∈ splitVars vars, (encodePart part).length ≤ kMaxPayload ∧
      serialize (encodePart part)
        = LittleEndian.encode 4 (encodePart part).length ++ encodePart part

theorem serialize_of_le {bytes : Bytes} (h : bytes.length ≤ kMaxPayload) :
    serialize bytes = LittleEndian.encode 4 bytes.length ++ bytes := by
  rw [kMaxPayload] at h
  have hmod : bytes.length % 2 ^ 32 = bytes.length := Nat.mod_eq_of_lt (by omega)
  rw [serialize]
  simp only [hmod, kMaxPayload]
  rw [if_neg (by omega), List.take_length]

/-- With every join fitting, all parts from the start of a part on are within the limit. -/
theorem bodySize_le_of_joinsFit {pre : List NetUserVar} (hpre : PartStart pre)
    (vars : List NetUserVar) (halone : ∀ v ∈ vars, bodySize [v] ≤ kMaxBody)
    (hfits : JoinsFit (pre ++ vars)) : ∀ part ∈ splitVars vars, bodySize part ≤ kMaxBody := by
  induction h : vars.length using Nat.strong_induction_on generalizing vars pre with
  | _ n ih =>
    cases vars with
    | nil => simp [splitVars, splitLoop]
    | cons v vars =>
      obtain ⟨q, w, rest, hsplit, hfill, hq, hrest⟩ := fillPart_spec v vars
      rw [hsplit] at halone hfits h
      rw [splitVars_cons hfill]
      refine List.forall_mem_cons.mpr ⟨?_, ?_⟩
      · by_cases hnil : q = []
        · simpa [hnil] using halone w (by simp)
        · exact hfits pre q w rest rfl hpre hnil hq
      rcases hrest with rfl | hfull
      · simp [splitVars, splitLoop]
      · refine ih rest.length (by simp at h; omega) (hpre.next hq hfull) rest
          (fun v hv => halone v (by simp [hv])) ?_ rfl
        simpa using hfits

theorem splitVars_syncsAll_iff_joinsFit (vars : List NetUserVar)
    (halone : ∀ v ∈ vars, bodySize [v] ≤ kMaxBody) : SyncsAll vars ↔ JoinsFit vars := by
  constructor
  · rintro ⟨-, hall⟩ pre part v post rfl hpre - hbelow
    obtain ⟨parts, hparts⟩ := splitVars_partStart hpre
    obtain ⟨x, xs, hx⟩ := List.exists_cons_of_ne_nil (l := part ++ v :: post) (by simp)
    obtain ⟨more, hmore⟩ := fillPart_fst ([] ++ part ++ [v]) (0 + used (part ++ [v])) post
    rw [← fillPart_append [] 0 part v post (by omega), hx] at hmore
    -- the part that starts here holds `part` and `v`
    have hin : part ++ [v] ++ more ∈ splitVars (pre ++ (part ++ v :: post)) := by
      have hfill : fillPart [] 0 (x :: xs) = (part ++ [v] ++ more, (fillPart [] 0 (x :: xs)).2) :=
        Prod.ext (by simpa using hmore) rfl
      rw [hparts, hx, splitVars_cons hfill]
      simp
    have hle := (length_encodePart_le_iff _).mp (hall _ hin).1
    rw [bodySize_append] at hle
    omega
  · intro hfits
    refine ⟨flatten_splitVars vars, fun part hpart => ?_⟩
    have hle := (length_encodePart_le_iff part).mpr
      (bodySize_le_of_joinsFit .nil vars halone hfits part hpart)
    exact ⟨hle, serialize_of_le hle⟩

/-! ## The variables that overshoot -/

theorem openPart_concat (vars : List NetUserVar) (v : NetUserVar) :
    openPart (vars ++ [v]) =
      if used (openPart vars) < kSyncBudget then openPart vars ++ [v] else [v] := by
  rw [openPart, List.foldl_append]
  rfl

/-- Before the open part there are full ones, and it was below the budget before its last
variable. -/
theorem openPart_spec (vars : List NetUserVar) :
    (∃ pre, vars = pre ++ openPart vars ∧ PartStart pre) ∧
      (openPart vars = [] ∨
        ∃ part v, openPart vars = part ++ [v] ∧ used part < kSyncBudget) := by
  induction vars using List.reverseRecOn with
  | nil => exact ⟨⟨[], rfl, .nil⟩, .inl rfl⟩
  | append_singleton vars v ih =>
    obtain ⟨⟨pre, hvars, hpre⟩, hlast⟩ := ih
    rw [openPart_concat]
    split
    · next hbelow =>
      refine ⟨⟨pre, ?_, hpre⟩, .inr ⟨openPart vars, v, rfl, hbelow⟩⟩
      rw [← List.append_assoc, ← hvars]
    · next hfull =>
      refine ⟨⟨vars, rfl, ?_⟩, .inr ⟨[], v, rfl, by decide⟩⟩
      obtain hnil | ⟨part, w, hpart, hbelow⟩ := hlast
      · rw [hnil] at hfull
        exact absurd (by decide) hfull
      · rw [hpart] at hvars hfull
        rw [hvars]
        exact hpre.next hbelow (Nat.not_lt.mp hfull)

/-- From the start of a part on, the open part is what has come since. -/
theorem openPart_append {pre : List NetUserVar}
    (hpre : openPart pre = [] ∨ kSyncBudget ≤ used (openPart pre)) {part : List NetUserVar}
    (hbelow : used part < kSyncBudget) (v : NetUserVar) :
    openPart (pre ++ (part ++ [v])) = part ++ [v] := by
  induction part using List.reverseRecOn generalizing v with
  | nil =>
    rw [List.nil_append, openPart_concat]
    obtain hnil | hfull := hpre
    · rw [hnil, if_pos (by decide), List.nil_append]
    · rw [if_neg (Nat.not_lt.mpr hfull)]
  | append_singleton part w ih =>
    have hpart : used part < kSyncBudget := by
      rw [used_append] at hbelow
      omega
    rw [← List.append_assoc, openPart_concat, ih hpart w, if_pos hbelow]

theorem openPart_of_partStart {pre : List NetUserVar} (hpre : PartStart pre) :
    openPart pre = [] ∨ kSyncBudget ≤ used (openPart pre) := by
  induction hpre with
  | nil => exact .inl rfl
  | @next pre part v _ hbelow hfull ih =>
    right
    rwa [openPart_append ih hbelow]

theorem bodySize_singleton (v : NetUserVar) : bodySize [v] = entrySize v := by
  simp [bodySize]

/-- The joins fit where the large ones do: for the others there is always room. -/
theorem joinsFit_iff {vars : List NetUserVar} (halone : ∀ v ∈ vars, bodySize [v] ≤ kMaxBody) :
    JoinsFit vars ↔ OvershootFits vars := by
  constructor
  · rintro hfits pre v post rfl -
    by_cases hfull : kSyncBudget ≤ used (openPart pre)
    · exact .inl hfull
    right
    have hbelow := Nat.not_le.mp hfull
    have hone := halone v (by simp)
    rw [bodySize_singleton] at hone
    obtain ⟨⟨start, hpre, hstart⟩, -⟩ := openPart_spec pre
    generalize openPart pre = part at *
    subst hpre
    by_cases hnil : part = []
    · rw [hnil, show bodySize [] = 0 from rfl]
      exact hone
    · have hle := hfits start part v post (by simp) hstart hnil hbelow
      rw [bodySize_append, bodySize_singleton] at hle
      exact Nat.le_sub_of_add_le' hle
  · rintro hfits pre part v post rfl hpre hne hbelow
    have hopen : openPart (pre ++ part) = part := by
      obtain hnil | ⟨front, last, rfl⟩ := List.eq_nil_or_concat part
      · exact absurd hnil hne
      rw [List.concat_eq_append, used_append] at hbelow
      rw [List.concat_eq_append]
      exact openPart_append (openPart_of_partStart hpre) (by omega) last
    have hused := bodySize_le_used part
    rw [bodySize_append, bodySize_singleton]
    by_cases hlarge : kMaxJoining < entrySize v
    · have hv := hfits (pre ++ part) v post (by simp) hlarge
      rw [hopen] at hv
      have hfits := hv.resolve_left (Nat.not_le.mpr hbelow)
      have hpart : bodySize part ≤ kMaxBody := hused.trans (hbelow.le.trans (by decide))
      omega
    · have hroom : kMaxJoining + (kSyncBudget - 1) = kMaxBody := by decide
      omega

/-- The split keeps the packet limit exactly when every variable of more than `kMaxJoining` bytes
fits beside those that its part has already. -/
theorem splitVars_syncsAll_iff (vars : List NetUserVar)
    (halone : ∀ v ∈ vars, (encodePart [v]).length ≤ kMaxPayload) :
    SyncsAll vars ↔ OvershootFits vars := by
  have halone' : ∀ v ∈ vars, bodySize [v] ≤ kMaxBody := fun v hv =>
    (length_encodePart_le_iff [v]).mp (halone v hv)
  rw [splitVars_syncsAll_iff_joinsFit vars halone', joinsFit_iff halone']

/-- A small variable, whose estimate leaves its part open. -/
def smallVar : NetUserVar := { key := bytes "a", kind := .bool, b := true }

def stringVar (s : Bytes) : NetUserVar := { key := bytes "k", kind := .string, s := s }

/-- A string of this length makes a packet of exactly `kMaxPayload` bytes, sent alone. -/
theorem bodySize_stringVar {s : Bytes} (hs : s.length = 1048560) :
    bodySize [stringVar s] = kMaxBody := by
  have hvalue : (Pb.bytesField 6 s).length = 1048564 := by
    rw [Pb.length_bytesField, hs]
    decide
  have hvar : (encodeVar (stringVar s)).length = 1048567 := by
    have hfront : (Pb.uintField 1 0 ++ Pb.uintField 2 0 ++ strField 3 (bytes "k")).length = 3 := by
      decide
    have hend : (Pb.uintField 8 0).length = 0 := by decide
    show ((Pb.uintField 1 0 ++ Pb.uintField 2 0 ++ strField 3 (bytes "k")) ++ Pb.bytesField 6 s
      ++ Pb.uintField 8 0).length = 1048567
    rw [List.length_append, List.length_append, hfront, hvalue, hend]
  have hentry : entrySize (stringVar s) = kMaxBody := by
    rw [entrySize, Pb.length_bytesField, hvar]
    decide
  simp [bodySize, hentry]

/-- Both variables fit a packet alone, and the one packet they are sent in is past the limit. -/
theorem smallVar_stringVar_overshoots {s : Bytes} (hs : s.length = 1048560) :
    (∀ v ∈ [smallVar, stringVar s], (encodePart [v]).length ≤ kMaxPayload) ∧
      ¬ SyncsAll [smallVar, stringVar s] := by
  have hlarge := bodySize_stringVar hs
  constructor
  · intro v hv
    rw [length_encodePart_le_iff]
    rcases List.mem_cons.mp hv with rfl | hv
    · decide
    · rw [List.mem_singleton.mp hv, hlarge]
  · rintro ⟨-, hall⟩
    have hfill : fillPart [] 0 [smallVar, stringVar s] = ([smallVar, stringVar s], []) :=
      fillPart_append [] 0 [smallVar] (stringVar s) [] (by decide)
    have hle := (length_encodePart_le_iff _).mp
      (hall [smallVar, stringVar s] (by rw [splitVars_cons hfill]; simp)).1
    have hsum : bodySize [smallVar, stringVar s] = bodySize [smallVar] + bodySize [stringVar s] :=
      bodySize_append [smallVar] [stringVar s]
    have hpos : 0 < bodySize [smallVar] := by decide
    omega

/-- A boolean and then a string that alone just fits. -/
theorem overshoot_not_syncsAll :
    (∀ v ∈ [smallVar, stringVar (List.replicate 1048560 0)],
        (encodePart [v]).length ≤ kMaxPayload) ∧
      ¬ SyncsAll [smallVar, stringVar (List.replicate 1048560 0)] :=
  smallVar_stringVar_overshoots (List.length_replicate ..)

theorem estimate_stringVar (s : Bytes) : estimate (stringVar s) = s.length + 65 := by
  simp only [estimate, stringVar, show (bytes "k").length = 1 from rfl]
  omega

/-- A variable that fills its part to the budget leaves the next one alone. -/
theorem overshootFits_of_full {middle large : NetUserVar}
    (hmiddle : kSyncBudget ≤ estimate middle ∧ estimate middle ≤ kMaxJoining) :
    OvershootFits [smallVar, middle, large] := by
  have hsmall : entrySize smallVar ≤ kMaxJoining := by decide
  have hle := entrySize_le_estimate middle
  intro pre v post hvars hv
  match pre with
  | [] =>
    rw [List.nil_append, List.cons.injEq] at hvars
    rw [← hvars.1] at hv
    omega
  | [first] =>
    rw [List.singleton_append, List.cons.injEq, List.cons.injEq] at hvars
    rw [← hvars.2.1] at hv
    omega
  | [first, second] =>
    rw [List.cons_append, List.singleton_append, List.cons.injEq, List.cons.injEq] at hvars
    rw [← hvars.1, ← hvars.2.1]
    left
    have hopen : openPart [smallVar, middle] = [smallVar, middle] := rfl
    rw [hopen, used_cons, used_cons]
    omega
  | first :: second :: third :: pre =>
    simp at hvars

/-- A boolean and a string fill one part to its budget, and a string that just fits a packet alone
has the next one. -/
theorem splitVars_syncsAll_iff_parts :
    SyncsAll [smallVar, stringVar (List.replicate 0x40000 0),
      stringVar (List.replicate 1048560 0)] := by
  have hmiddle := estimate_stringVar (List.replicate 0x40000 0)
  rw [List.length_replicate] at hmiddle
  have hlarge := bodySize_stringVar (List.length_replicate (n := 1048560) (a := 0))
  have hmax : 0x40000 + 65 ≤ kMaxJoining := by decide
  apply (splitVars_syncsAll_iff _ ?_).mpr
  · apply overshootFits_of_full
    rw [hmiddle]
    exact ⟨by decide, hmax⟩
  · have hbody : kMaxJoining ≤ kMaxBody := Nat.sub_le _ _
    have hle := entrySize_le_estimate (stringVar (List.replicate 0x40000 0))
    rw [hmiddle] at hle
    rw [List.forall_mem_cons, List.forall_mem_cons, List.forall_mem_singleton]
    simp only [length_encodePart_le_iff, bodySize_singleton] at hlarge ⊢
    refine ⟨by decide, hle.trans (hmax.trans hbody), hlarge.le⟩

end Net
end Bg3le
