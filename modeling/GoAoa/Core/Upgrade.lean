import GoAoa.Core.UpgradeMonitor
import GoAoa.Lib.Run

/-!
# The upgrade task

`DoUpgrade` of `core/upgrade_monitor.go`: every few seconds the task looks at the recorded request
and goes on if its version is higher than the running one. Versions are compared as strings, byte
by byte: that is the order of their numbers as long as the first numbers that differ have equally
many digits. `1.10` comes before `1.9`.
-/

namespace GoAoa.Core

open List

/-! ## The task -/

inductive UpgradeAct where
  /-- `prepareNewAoa`: downloads and compiles the tag. -/
  | prepare (url tag : Bytes)
  /-- `aoad.sh`: replaces the running program. -/
  | install
  deriving DecidableEq, Repr

def isNewVersionHigher (current : Bytes) (info : RequestInfo) : Bool := current < info.version

def getTagFromVersion (version : Bytes) : Bytes :=
  "release_".toUTF8.toList ++ version.map fun b => if b = '.'.toUInt8 then '_'.toUInt8 else b

/-- `GetRequestInfo` of the logic contract; what is not recorded decodes to the zero request. -/
def UpgradeStore.request (u : UpgradeStore) : RequestInfo :=
  (u.logic.bind u.requests).getD ⟨0, 0, [], [], 0, [], 0⟩

def UpgradeStore.write (u : UpgradeStore) (w : Address → UpgradeWrite) : UpgradeStore :=
  (u.logic.map fun c => u.apply (w c)).getD u

/-- `DoUpgrade`; `none` is the return after the comparison of versions. -/
def doUpgrade (current : Bytes) (height : Nat) (newAoa : Bool) (u : UpgradeStore) :
    Option (UpgradeStore × List UpgradeAct) :=
  let info := u.request
  let prepare := UpgradeAct.prepare info.url (getTagFromVersion info.version)
  if isNewVersionHigher current info = false then none
  else if info.status = 1 then
    some (u.write (.setRequest · { info with status := 2 }), [prepare])
  else if info.status = 2 ∧ info.height ≤ height then
    if newAoa then some (u.write .clear, [.install]) else some (u, [prepare])
  else some (u, [])

/-! ## Versions -/

def IsDigit (b : UInt8) : Prop := 48 ≤ b.toNat ∧ b.toNat ≤ 57

/-- The number a string of digits stands for. -/
def number : Bytes → Nat
  | [] => 0
  | b :: c => (b.toNat - 48) * 10 ^ c.length + number c

def dotted : List Bytes → Bytes
  | [] => []
  | [c] => c
  | c :: cs => c ++ '.'.toUInt8 :: dotted cs

structure Version where
  parts : List Bytes
  nonempty : parts ≠ []
  decimal : ∀ c ∈ parts, c ≠ [] ∧ ∀ b ∈ c, IsDigit b

namespace Version

def text (v : Version) : Bytes := dotted v.parts

/-- The numbers of a version. Versions are compared by the first number that differs. -/
def numbers (v : Version) : List Nat := v.parts.map number

end Version

/-- The first digits of `u` make the larger number, compared with as many of `v`, or they make the
same one and `u` has more of them. -/
def Leads (u v : Bytes) : Prop :=
  number (v.take u.length) < number (u.take v.length) ∨
    number (v.take u.length) = number (u.take v.length) ∧ v.length < u.length

/-- Where two versions first differ, the part that leads is the larger number. -/
def LeadsAlike : List Bytes → List Bytes → Prop
  | u :: us, v :: vs =>
    if u = v then LeadsAlike us vs
    else Leads u v ↔
      number v < number u ∨ number v = number u ∧ vs.map number < us.map number
  | _, _ => True

/-! ## Digits -/

theorem number_lt {c : Bytes} (h : ∀ b ∈ c, IsDigit b) : number c < 10 ^ c.length := by
  induction c with
  | nil => simp [number]
  | cons b c ih =>
    obtain ⟨hb, hc⟩ := forall_mem_cons.1 h
    have hdigit : b.toNat - 48 ≤ 9 := by have := hb.2; omega
    have := Nat.mul_le_mul_right (10 ^ c.length) hdigit
    have := ih hc
    simp only [number, length_cons, Nat.pow_succ]
    omega

/-- Strings of equally many digits are ordered as their numbers. -/
theorem order_number {u v : Bytes} (hu : ∀ b ∈ u, IsDigit b) (hv : ∀ b ∈ v, IsDigit b)
    (hlen : u.length = v.length) :
    (u < v ↔ number u < number v) ∧ (u = v ↔ number u = number v) := by
  induction u generalizing v with
  | nil => rw [length_eq_zero_iff.1 hlen.symm]; simp [number]
  | cons a u ih =>
    cases v with
    | nil => cases hlen
    | cons b v =>
      obtain ⟨ha, hu⟩ := forall_mem_cons.1 hu
      obtain ⟨hb, hv⟩ := forall_mem_cons.1 hv
      have hlen := Nat.succ.inj hlen
      have hnu := number_lt hu
      have hnv := number_lt hv
      rw [hlen] at hnu
      simp only [cons_lt_cons_iff, cons.injEq, ih hu hv hlen, number, hlen,
        UInt8.lt_iff_toNat_lt, ← UInt8.toNat_inj]
      -- a first digit outweighs all that follow it
      have step : ∀ {x y}, x < y → x * 10 ^ v.length + 10 ^ v.length ≤ y * 10 ^ v.length :=
        fun h => by rw [← Nat.succ_mul]; exact Nat.mul_le_mul_right _ h
      have hap := ha.1
      have hbp := hb.1
      rcases Nat.lt_trichotomy a.toNat b.toNat with h | h | h
      · have := step (show a.toNat - 48 < b.toNat - 48 by omega)
        omega
      · rw [h]; omega
      · have := step (show b.toNat - 48 < a.toNat - 48 by omega)
        omega

theorem append_lt_append_iff {x y s t : Bytes} (hlen : x.length = y.length) :
    x ++ s < y ++ t ↔ x < y ∨ x = y ∧ s < t := by
  induction x generalizing y with
  | nil => rw [length_eq_zero_iff.1 hlen.symm]; simp
  | cons a x ih =>
    cases y with
    | nil => cases hlen
    | cons =>
      simp only [cons_append, cons_lt_cons_iff, ih (Nat.succ.inj hlen), cons.injEq]
      tauto

theorem lt_iff_leads {u v : Bytes} (hu : ∀ b ∈ u, IsDigit b) (hv : ∀ b ∈ v, IsDigit b) :
    v < u ↔ Leads u v := by
  have hlen : (v.take u.length).length = (u.take v.length).length := by
    simp only [length_take, Nat.min_comm]
  have hu' : ∀ b ∈ u.take v.length, IsDigit b := fun b hb => hu b (mem_of_mem_take hb)
  have hv' : ∀ b ∈ v.take u.length, IsDigit b := fun b hb => hv b (mem_of_mem_take hb)
  obtain ⟨hlt, heq⟩ := order_number hv' hu' hlen
  have hrest : v.drop u.length < u.drop v.length ↔ v.length < u.length := by
    rcases Nat.lt_or_ge v.length u.length with h | h
    · rw [drop_eq_nil_of_le (by omega : v.length ≤ u.length)]
      cases hd : u.drop v.length with
      | nil => exact absurd (drop_eq_nil_iff.1 hd) (by omega)
      | cons => simp [h]
    · rw [drop_eq_nil_of_le (by omega : u.length ≤ v.length)]
      simp [h]
  have hsplit := append_lt_append_iff (s := v.drop u.length) (t := u.drop v.length) hlen
  rw [take_append_drop, take_append_drop] at hsplit
  rw [hsplit, hlt, heq, hrest]
  rfl

/-- Versions lead alike whose first parts that differ have equally many digits. -/
theorem leadsAlike_of_length {u v : Bytes} (hu : ∀ b ∈ u, IsDigit b) (hv : ∀ b ∈ v, IsDigit b)
    (hlen : v.length = u.length) (hne : u ≠ v) (ws us vs : List Bytes) :
    LeadsAlike (ws ++ u :: us) (ws ++ v :: vs) := by
  obtain ⟨hlt, heq⟩ := order_number hv hu hlen
  induction ws with
  | nil =>
    show ite (u = v) _ _
    rw [if_neg hne, ← lt_iff_leads hu hv, hlt]
    exact ⟨.inl, fun h => h.resolve_right fun h => hne (heq.2 h.1).symm⟩
  | cons w ws ih =>
    show ite (w = w) _ _
    rwa [if_pos rfl]

/-! ## Texts of versions -/

/-- What follows a number in the text of a version. -/
def suffix : List Bytes → Bytes
  | [] => []
  | cs => '.'.toUInt8 :: dotted cs

theorem dotted_cons (c : Bytes) (cs : List Bytes) : dotted (c :: cs) = c ++ suffix cs := by
  cases cs with
  | nil => exact (append_nil c).symm
  | cons => rfl

theorem nil_lt_dotted {c : Bytes} (hc : c ≠ []) (cs : List Bytes) : [] < dotted (c :: cs) := by
  rw [dotted_cons]
  cases c with
  | nil => exact absurd rfl hc
  | cons => exact nil_lt_cons _ _

/-- Dots and the end of the text come before every digit. -/
theorem suffix_lt {b : UInt8} (hb : IsDigit b) (cs : List Bytes) (l : Bytes) :
    suffix cs < b :: l ∧ ¬b :: l < suffix cs := by
  have hdot : '.'.toUInt8.toNat < b.toNat := Nat.lt_of_lt_of_le (by decide) hb.1
  cases cs with
  | nil => exact ⟨nil_lt_cons _ _, not_lt_nil _⟩
  | cons =>
    refine ⟨cons_lt_cons_iff.2 (.inl hdot), fun h => ?_⟩
    rcases cons_lt_cons_iff.1 h with h | ⟨h, -⟩
    · exact absurd (UInt8.lt_iff_toNat_lt.1 h) (by omega)
    · rw [h] at hdot; omega

theorem text_lt_of_ne {u v : Bytes} (hu : ∀ b ∈ u, IsDigit b) (hv : ∀ b ∈ v, IsDigit b)
    (hne : u ≠ v) (us vs : List Bytes) : v ++ suffix vs < u ++ suffix us ↔ v < u := by
  induction u generalizing v with
  | nil =>
    cases v with
    | nil => exact absurd rfl hne
    | cons b =>
      exact ⟨fun h => absurd h (suffix_lt (hv b mem_cons_self) us _).2,
        fun h => absurd h (not_lt_nil _)⟩
  | cons a u ih =>
    obtain ⟨ha, hu⟩ := forall_mem_cons.1 hu
    cases v with
    | nil => exact ⟨fun _ => nil_lt_cons _ _, fun _ => (suffix_lt ha vs _).1⟩
    | cons b =>
      obtain ⟨-, hv⟩ := forall_mem_cons.1 hv
      rw [cons_append, cons_append, cons_lt_cons_iff, cons_lt_cons_iff]
      by_cases hba : b = a
      · rw [ih hu hv fun h => hne (by rw [hba, h])]
      · simp [hba]

theorem suffix_lt_suffix {us vs : List Bytes} (hu : ∀ c ∈ us, c ≠ []) :
    suffix vs < suffix us ↔ dotted vs < dotted us := by
  cases us with
  | nil => simp [suffix, dotted]
  | cons u us =>
    have hpos := nil_lt_dotted (hu u mem_cons_self) us
    cases vs <;> simp [suffix, dotted, hpos]

/-- The comparison of the texts agrees with that of the numbers where the leading parts do. -/
theorem text_order_iff {us vs : List Bytes} (hu : ∀ c ∈ us, c ≠ [] ∧ ∀ b ∈ c, IsDigit b)
    (hv : ∀ c ∈ vs, c ≠ [] ∧ ∀ b ∈ c, IsDigit b) :
    (dotted vs < dotted us ↔ vs.map number < us.map number) ↔ LeadsAlike us vs := by
  induction us generalizing vs with
  | nil => simp [dotted, LeadsAlike]
  | cons u us ih =>
    obtain ⟨hu0, hus⟩ := forall_mem_cons.1 hu
    cases vs with
    | nil =>
      have hpos := nil_lt_dotted hu0.1 us
      simp [dotted, LeadsAlike, hpos]
    | cons v =>
      obtain ⟨hv0, hvs⟩ := forall_mem_cons.1 hv
      rw [dotted_cons, dotted_cons, map_cons, map_cons, cons_lt_cons_iff]
      unfold LeadsAlike
      by_cases heq : u = v
      · subst heq
        rw [if_pos rfl, append_lt_append_iff rfl, ← ih hus hvs,
          suffix_lt_suffix fun c hc => (hus c hc).1]
        simp
      · rw [if_neg heq, text_lt_of_ne hu0.2 hv0.2 heq, lt_iff_leads hu0.2 hv0.2]

/-! ## Requests over time -/

/-- A look of the task at a request for a version. -/
structure Look where
  version : Version
  store : UpgradeStore
  asks : store.request.version = version.text
  height : Nat
  newAoa : Bool

namespace Look

def act (l : Look) (running : Version) : Option (UpgradeStore × List UpgradeAct) :=
  doUpgrade running.text l.height l.newAoa l.store

def run (l : Look) (running : Version) : Option Version :=
  match l.act running with
  | none => some running
  | some r => if .install ∈ r.2 then some l.version else some running

def Alike (l : Look) (running : Version) : Prop := LeadsAlike l.version.parts running.parts

theorem act_isSome (l : Look) (running : Version) :
    (l.act running).isSome ↔ running.text < l.version.text := by
  unfold act doUpgrade isNewVersionHigher
  dsimp only
  rw [l.asks]
  by_cases h : running.text < l.version.text
  · rw [if_neg (by simp [h])]
    simp only [h, iff_true]
    split
    · rfl
    · split
      · split <;> rfl
      · rfl
  · simp [h]

theorem act_isSome_iff (l : Look) (running : Version) :
    ((l.act running).isSome ↔ running.numbers < l.version.numbers) ↔ l.Alike running := by
  rw [act_isSome]
  exact text_order_iff l.version.decimal running.decimal

/-- **Upgrade versions.** Over looks whose versions lead alike, no older version is installed; and
whatever runs, the task goes on with a request for a version exactly if its numbers are greater,
precisely when the request leads alike. -/
theorem upgrades_ordered (ls : List Look) (start running : Version) (l : Look)
    (hrun : Run.exec run ls start = some running) (halike : Run.Along run Alike ls start) :
    ¬running.numbers < start.numbers ∧
      (((l.act running).isSome ↔ running.numbers < l.version.numbers) ↔ l.Alike running) := by
  refine ⟨?_, act_isSome_iff l running⟩
  refine Run.invariant (I := fun v => ¬v.numbers < start.numbers) (fun l v v' hl hv hs => ?_) halike
    (lt_irrefl _) hrun
  unfold run at hs
  cases hact : l.act v with
  | none => rw [hact] at hs; cases hs; exact hv
  | some =>
    have hlt := ((act_isSome_iff l v).2 hl).1 (by rw [hact]; rfl)
    rw [hact] at hs
    dsimp only at hs
    split at hs
    · cases hs; exact fun h => hv (lt_trans hlt h)
    · cases hs; exact hv

end Look

def onePointNine : Version where
  parts := [[49], [57]]
  nonempty := by decide
  decimal := by simp [IsDigit]

def onePointTen : Version where
  parts := [[49], [49, 48]]
  nonempty := by decide
  decimal := by simp [IsDigit]

def readyLook (v : Version) : Look where
  version := v
  store := ⟨some 5, fun _ => some ⟨0, 5, v.text, [], 0, [], 2⟩, 5⟩
  asks := rfl
  height := 0
  newAoa := true

/-- The request for 1.10 is ignored while 1.9 runs, and 1.9 replaces 1.10. -/
theorem ten_before_nine :
    onePointNine.numbers < onePointTen.numbers ∧ (readyLook onePointTen).act onePointNine = none ∧
      ((readyLook onePointNine).act onePointTen).map Prod.snd = some [.install] := by
  decide +kernel

def twoPointZero : Version where
  parts := [[50], [48]]
  nonempty := by decide
  decimal := by simp [IsDigit]

theorem upgrades_ordered_two : ¬twoPointZero.numbers < onePointNine.numbers ∧
      (((readyLook onePointTen).act twoPointZero).isSome ↔
        twoPointZero.numbers < onePointTen.numbers) := by
  have h := Look.upgrades_ordered [readyLook twoPointZero] onePointNine twoPointZero
    (readyLook onePointTen) rfl
    ⟨leadsAlike_of_length (u := [50]) (v := [49]) (by simp [IsDigit]) (by simp [IsDigit]) rfl
      (by decide) [] [[48]] [[57]], fun _ _ => trivial⟩
  refine ⟨h.1, h.2.2 ?_⟩
  simp [Look.Alike, LeadsAlike, readyLook, twoPointZero, onePointTen, Leads, number]

end GoAoa.Core
