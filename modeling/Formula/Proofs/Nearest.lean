import Formula.Proofs.Rounding

/-!
# Nearest magnitudes

Rounding gives the nearest magnitude of 53 significant bits, and of two equally near ones the one whose last bit is
zero. That leaves nothing else to choose.
-/

namespace Formula

/-- Whether a magnitude has at most 53 significant bits, however large it is. -/
def Significant (units : Nat) : Prop :=
  ∃ significand places, significand < 2 ^ 53 ∧ units = significand * 2 ^ places

/-- How far a magnitude lies from `num / den`, in parts of `1 / den`. -/
def distance (num den units : Nat) : Nat :=
  Nat.dist (units * den) num

/-- Whether no magnitude of 53 significant bits is nearer to `num / den`. If another one is as near, the last of the
53 bits is zero. -/
structure IsNearest (num den units : Nat) : Prop where
  significant : Significant units
  nearest : ∀ other, Significant other → distance num den units ≤ distance num den other
  even : ∀ other, Significant other → other ≠ units → distance num den other = distance num den units →
    2 ^ (spareBits units + 1) ∣ units

variable {num den units significand spare lead places rest : Nat}

theorem significant_iff_dvd : Significant units ↔ 2 ^ spareBits units ∣ units := by
  constructor
  · rintro ⟨significand, places, small, rfl⟩
    exact spareBits_dvd_mul small.le
  · intro divides
    exact ⟨_, _, div_spareBits_lt units, (Nat.div_mul_cancel divides).symm⟩

theorem significant_roundUnits (num den : Nat) : Significant (roundUnits num den) :=
  significant_iff_dvd.mpr (spareBits_dvd_roundUnits num den)

theorem log2_append (some : lead ≠ 0) (small : rest < 2 ^ places) :
    (lead * 2 ^ places + rest).log2 = lead.log2 + places := by
  have positive := Nat.two_pow_pos places
  have whole : lead * 2 ^ places ≠ 0 := Nat.mul_ne_zero some positive.ne'
  rw [Nat.log2_eq_iff (by omega), Nat.add_right_comm, Nat.pow_add, Nat.pow_add]
  refine ⟨le_trans (Nat.mul_le_mul_right _ (Nat.log2_self_le some)) (Nat.le_add_right ..), ?_⟩
  calc lead * 2 ^ places + rest
    _ < (lead + 1) * 2 ^ places := by
      rw [Nat.add_one_mul]
      omega
    _ ≤ 2 ^ (lead.log2 + 1) * 2 ^ places := Nat.mul_le_mul_right _ Nat.lt_log2_self

/-- A magnitude of more than 52 bits gets as many spare bits more as bits are put behind it. -/
theorem spareBits_append (large : 2 ^ 52 ≤ lead) (small : rest < 2 ^ places) :
    spareBits (lead * 2 ^ places + rest) = spareBits lead + places := by
  have some : lead ≠ 0 := by omega
  have enough := (Nat.le_log2 some).mpr large
  rw [spareBits, spareBits, log2_append some small]
  omega

theorem spareBits_mul_two_pow (large : 2 ^ 52 ≤ lead) (places : Nat) :
    spareBits (lead * 2 ^ places) = spareBits lead + places := by
  have appended : spareBits (lead * 2 ^ places + 0) = _ := spareBits_append large (Nat.two_pow_pos places)
  rwa [Nat.add_zero] at appended

theorem spareBits_of_lt (small : units < 2 ^ 53) : spareBits units = 0 := by
  by_cases zero : units = 0
  · rw [zero]
    rfl
  · have bits := (Nat.log2_lt zero).mpr small
    rw [spareBits]
    omega

/-- The last bit of a significand decides, also where it is written with one bit too many. -/
theorem two_pow_succ_spareBits_dvd_iff (small : significand ≤ 2 ^ 53) (full : spare = 0 ∨ 2 ^ 52 ≤ significand) :
    2 ^ (spareBits (significand * 2 ^ spare) + 1) ∣ significand * 2 ^ spare ↔ significand % 2 = 0 := by
  by_cases top : significand = 2 ^ 53
  · have even : 2 ^ 53 % 2 = 0 := by decide
    rw [top, spareBits_mul_two_pow (by decide), ← Nat.pow_add, Nat.pow_dvd_pow_iff_le_right (by decide)]
    have bits : spareBits (2 ^ 53) = 1 := by decide
    omega
  · have bits : spareBits (significand * 2 ^ spare) = spare := by
      have none := spareBits_of_lt (lt_of_le_of_ne small top)
      rcases full with rfl | full
      · rw [Nat.pow_zero, Nat.mul_one, none]
      · rw [spareBits_mul_two_pow full, none, Nat.zero_add]
    rw [bits, Nat.pow_succ', Nat.mul_dvd_mul_iff_right (Nat.two_pow_pos spare), Nat.dvd_iff_mod_eq_zero]

/-- The two magnitudes of 53 significant bits around `num / den`. -/
structure Around (num den low spare : Nat) : Prop where
  small : low < 2 ^ 53
  full : spare = 0 ∨ 2 ^ 52 ≤ low
  lower : low * 2 ^ spare * den ≤ num
  upper : num < (low + 1) * 2 ^ spare * den
  rounded : roundUnits num den = roundDiv num (den * 2 ^ spare) * 2 ^ spare

theorem exists_around (num : Nat) {den : Nat} (positive : 0 < den) : ∃ low spare, Around num den low spare := by
  have gap := Nat.two_pow_pos (spareBits (num / den))
  refine ⟨num / den / 2 ^ spareBits (num / den), spareBits (num / den), div_spareBits_lt _, ?_, ?_, ?_, rfl⟩
  · by_cases none : spareBits (num / den) = 0
    · exact Or.inl none
    · have some : num / den ≠ 0 := by
        intro zero
        rw [zero] at none
        exact none rfl
      rw [Nat.le_div_iff_mul_le gap, ← Nat.pow_add]
      refine Or.inr (le_trans (Nat.pow_le_pow_right (by decide) ?_) (Nat.log2_self_le some))
      rw [spareBits] at none ⊢
      omega
  · exact le_trans (Nat.mul_le_mul_right _ (Nat.div_mul_le_self _ _)) (Nat.div_mul_le_self _ _)
  · have next : num / den < (num / den / 2 ^ spareBits (num / den) + 1) * 2 ^ spareBits (num / den) := by
      rw [← Nat.div_lt_iff_lt_mul gap]
      exact Nat.lt_succ_self _
    rwa [← Nat.div_lt_iff_lt_mul positive]

namespace Around

variable {low other : Nat}

theorem significant_lower (around : Around num den low spare) : Significant (low * 2 ^ spare) :=
  ⟨low, spare, around.small, rfl⟩

theorem significant_upper (around : Around num den low spare) : Significant ((low + 1) * 2 ^ spare) :=
  significant_iff_dvd.mpr (spareBits_dvd_mul around.small)

/-- There is no magnitude of 53 significant bits between the two. -/
theorem outside (around : Around num den low spare) (significant : Significant other) :
    other ≤ low * 2 ^ spare ∨ (low + 1) * 2 ^ spare ≤ other := by
  rcases around.full with rfl | full
  · rw [Nat.pow_zero, Nat.mul_one, Nat.mul_one]
    omega
  · by_contra between
    rw [not_or, Nat.not_le, Nat.not_le] at between
    have gap := Nat.two_pow_pos spare
    have divides : 2 ^ spare ∣ other := by
      refine Nat.dvd_trans (Nat.pow_dvd_pow 2 ?_) (significant_iff_dvd.mp significant)
      have large : 2 ^ (52 + spare) ≤ other := by
        rw [Nat.pow_add]
        exact le_trans (Nat.mul_le_mul_right _ full) between.1.le
      have bits := (Nat.le_log2 (by omega)).mpr large
      rw [spareBits]
      omega
    obtain ⟨count, rfl⟩ := divides
    rw [Nat.mul_comm (2 ^ spare), Nat.mul_lt_mul_right gap, Nat.mul_lt_mul_right gap] at between
    omega

theorem distance_lower (around : Around num den low spare) :
    distance num den (low * 2 ^ spare) = num - low * 2 ^ spare * den :=
  Nat.dist_eq_sub_of_le around.lower

theorem distance_upper (around : Around num den low spare) :
    distance num den ((low + 1) * 2 ^ spare) = (low + 1) * 2 ^ spare * den - num :=
  Nat.dist_eq_sub_of_le_right around.upper.le

/-- All others are farther than one of the two. -/
theorem farther (around : Around num den low spare) (positive : 0 < den) (significant : Significant other)
    (ne : other ≠ low * 2 ^ spare) (ne' : other ≠ (low + 1) * 2 ^ spare) :
    distance num den (low * 2 ^ spare) < distance num den other ∨
      distance num den ((low + 1) * 2 ^ spare) < distance num den other := by
  have lower := around.lower
  have upper := around.upper
  rcases around.outside significant with below | above
  · have less := Nat.mul_lt_mul_of_pos_right (lt_of_le_of_ne below ne) positive
    left
    rw [around.distance_lower, distance, Nat.dist_eq_sub_of_le (by omega)]
    omega
  · have more := Nat.mul_lt_mul_of_pos_right (lt_of_le_of_ne above (Ne.symm ne')) positive
    right
    rw [around.distance_upper, distance, Nat.dist_eq_sub_of_le_right (by omega)]
    omega

/-- Rounding takes the nearer of the two, and the lower of two equally near ones if its last bit is zero. -/
theorem roundUnits_eq (around : Around num den low spare) :
    roundUnits num den =
      if distance num den (low * 2 ^ spare) < distance num den ((low + 1) * 2 ^ spare) ∨
          distance num den (low * 2 ^ spare) = distance num den ((low + 1) * 2 ^ spare) ∧ low % 2 = 0 then
        low * 2 ^ spare
      else (low + 1) * 2 ^ spare := by
  have step : (low + 1) * 2 ^ spare * den = low * 2 ^ spare * den + den * 2 ^ spare := by ring
  have same : low * 2 ^ spare * den = low * (den * 2 ^ spare) := by ring
  have upper := around.upper
  obtain ⟨rest, split⟩ := Nat.exists_eq_add_of_le around.lower
  have quotient : roundDiv (low * (den * 2 ^ spare) + rest) (den * 2 ^ spare) = _ := roundDiv_add (by omega)
  rw [← same, ← split] at quotient
  have condition : (2 * rest < den * 2 ^ spare ∨ 2 * rest = den * 2 ^ spare ∧ low % 2 = 0) ↔
      (num - low * 2 ^ spare * den < (low + 1) * 2 ^ spare * den - num ∨
        num - low * 2 ^ spare * den = (low + 1) * 2 ^ spare * den - num ∧ low % 2 = 0) := by omega
  rw [around.rounded, around.distance_lower, around.distance_upper, quotient]
  simp only [condition]
  split <;> rfl

theorem eq_of_isNearest (around : Around num den low spare) (positive : 0 < den)
    (nearest : IsNearest num den units) : units = low * 2 ^ spare ∨ units = (low + 1) * 2 ^ spare := by
  have toLower := nearest.nearest _ around.significant_lower
  have toUpper := nearest.nearest _ around.significant_upper
  by_contra neither
  rw [not_or] at neither
  have farther := around.farther positive nearest.significant neither.1 neither.2
  omega

theorem isNearest_lower (around : Around num den low spare) (positive : 0 < den)
    (nearer : distance num den (low * 2 ^ spare) < distance num den ((low + 1) * 2 ^ spare) ∨
      distance num den (low * 2 ^ spare) = distance num den ((low + 1) * 2 ^ spare) ∧ low % 2 = 0) :
    IsNearest num den (low * 2 ^ spare) := by
  refine ⟨around.significant_lower, fun other significant => ?_, fun other significant ne same => ?_⟩
  · by_contra closer
    have farther := around.farther positive significant (by rintro rfl; omega) (by rintro rfl; omega)
    omega
  · rw [two_pow_succ_spareBits_dvd_iff around.small.le around.full]
    by_contra odd
    have farther := around.farther positive significant ne (by rintro rfl; omega)
    omega

theorem isNearest_upper (around : Around num den low spare) (positive : 0 < den)
    (nearer : ¬(distance num den (low * 2 ^ spare) < distance num den ((low + 1) * 2 ^ spare) ∨
      distance num den (low * 2 ^ spare) = distance num den ((low + 1) * 2 ^ spare) ∧ low % 2 = 0)) :
    IsNearest num den ((low + 1) * 2 ^ spare) := by
  refine ⟨around.significant_upper, fun other significant => ?_, fun other significant ne same => ?_⟩
  · by_contra closer
    have farther := around.farther positive significant (by rintro rfl; omega) (by rintro rfl; omega)
    omega
  · rw [two_pow_succ_spareBits_dvd_iff around.small (around.full.imp_right Nat.le_succ_of_le)]
    by_contra odd
    have farther := around.farther positive significant (by rintro rfl; omega) ne
    omega

end Around

/-- The nearest magnitude is the rounded one and no other. -/
theorem isNearest_iff (positive : 0 < den) : IsNearest num den units ↔ units = roundUnits num den := by
  obtain ⟨low, spare, around⟩ := exists_around num positive
  have apart : low * 2 ^ spare < (low + 1) * 2 ^ spare :=
    Nat.mul_lt_mul_of_pos_right (Nat.lt_succ_self low) (Nat.two_pow_pos spare)
  rw [around.roundUnits_eq]
  constructor
  · intro nearest
    have toLower := nearest.nearest _ around.significant_lower
    have toUpper := nearest.nearest _ around.significant_upper
    rcases around.eq_of_isNearest positive nearest with rfl | rfl
    · have even := nearest.even _ around.significant_upper apart.ne'
      rw [two_pow_succ_spareBits_dvd_iff around.small.le around.full] at even
      rw [if_pos (by omega)]
    · have even := nearest.even _ around.significant_lower apart.ne
      rw [two_pow_succ_spareBits_dvd_iff around.small (around.full.imp_right Nat.le_succ_of_le)] at even
      rw [if_neg (by omega)]
  · rintro rfl
    split
    · next below => exact around.isNearest_lower positive below
    · next above => exact around.isNearest_upper positive above

theorem isNearest_roundUnits (num : Nat) (positive : 0 < den) : IsNearest num den (roundUnits num den) :=
  (isNearest_iff positive).mpr rfl

/-- Of two values with one denominator, the larger one is not rounded to less. -/
theorem roundUnits_le_roundUnits {num' : Nat} (positive : 0 < den) (le : num ≤ num') :
    roundUnits num den ≤ roundUnits num' den := by
  have nearest := isNearest_roundUnits num positive
  have nearest' := isNearest_roundUnits num' positive
  by_contra more
  have more := Nat.mul_lt_mul_of_pos_right (Nat.not_le.mp more) positive
  have closer := nearest.nearest _ nearest'.significant
  have closer' := nearest'.nearest _ nearest.significant
  rw [distance, distance, Nat.dist, Nat.dist] at closer closer'
  -- each lies on the side of the other's result, so that they meet half-way
  obtain rfl : num = num' := by omega
  exact lt_irrefl _ more

theorem roundUnits_mono {num' den' : Nat} (positive : 0 < den) (positive' : 0 < den')
    (le : num * den' ≤ num' * den) : roundUnits num den ≤ roundUnits num' den' := by
  rw [← roundUnits_mul positive', ← roundUnits_mul positive num' den', Nat.mul_comm den', Nat.mul_comm den num',
    Nat.mul_comm den']
  exact roundUnits_le_roundUnits (Nat.mul_pos positive positive') le

namespace Binary64

/-- Whether a number is the nearest to `num / den` units. It is infinite where the nearest magnitude of 53
significant bits is out of range. -/
inductive IsNearest (num den : Nat) : Binary64 → Prop
  | finite {units : Nat} (nearest : Formula.IsNearest num den units) (representable : Representable units) :
      IsNearest num den (.finite false units representable)
  | infinity {units : Nat} (nearest : Formula.IsNearest num den units) (large : 2098 ≤ units.log2) :
      IsNearest num den (.infinity false)

theorem isNearest_iff_eq_round (positive : 0 < den) {n : Binary64} :
    IsNearest num den n ↔ n = round false num den := by
  unfold round
  constructor
  · intro nearest
    cases nearest with
    | finite nearest representable =>
      obtain rfl := (isNearest_iff positive).mp nearest
      rw [dif_pos representable.2]
    | infinity nearest large =>
      obtain rfl := (isNearest_iff positive).mp nearest
      rw [dif_neg (Nat.not_lt.mpr large)]
  · rintro rfl
    have nearest := isNearest_roundUnits num positive
    split
    · next inRange => exact .finite nearest _
    · next outOfRange => exact .infinity nearest (Nat.not_lt.mp outOfRange)

/-- Whether a number is the nearest to a whole number. -/
def IsNearestTo (n : Nat) (x : Binary64) : Prop :=
  IsNearest (n * unitsPerOne) 1 x

theorem isNearestTo_iff {n : Nat} {x : Binary64} : IsNearestTo n x ↔ x = ofNat n :=
  isNearest_iff_eq_round Nat.one_pos

end Binary64

end Formula
