import Mathlib
import PineForge.Calendar.Spans
import PineForge.Timeframe.Schedule

/-!
# The windows of a session day

`parse_session_breaks` reads up to eight windows into arrays of its own and starts again on the heap
at the ninth (`parse_many`). `WindowsText` is the grammar of the text; what follows a colon is not
read. The schedule of the windows is their union around the clock, seen from the first open
(`schedule_spec`).
-/

namespace PineForge.Timeframe

open Calendar

/-! ## The two paths -/

/-- One window, `HHMM-HHMM`, and the text after it. -/
def readWindow (session : Session) : Option ((ℤ × ℤ) × Session) :=
  match readClock session with
  | none => none
  | some (start, rest) =>
    if start ≥ 1440 then none
    else
      match rest with
      | '-' :: rest =>
        match readClock rest with
        | none => none
        | some (stop, rest) => some ((start, stop), rest)
      | _ => none

/-- What the arrays hold when the scan stops: all windows, or as many as fit and the text left. -/
inductive Inline
  | refused
  | windows (ws : List (ℤ × ℤ))
  | full (rest : Session)

/-- One more window. -/
def Inline.push (w : ℤ × ℤ) : Inline → Inline
  | .windows ws => .windows (w :: ws)
  | other => other

/-- The scan of `parse_session_breaks`, with room for so many windows. -/
def readInline : ℕ → Session → Inline
  | 0, rest => .full rest
  | room + 1, session =>
    match readWindow session with
    | none => .refused
    | some (w, []) => .windows [w]
    | some (w, ':' :: _) => .windows [w]
    | some (w, ',' :: rest) => (readInline room rest).push w
    | some _ => .refused

/-- The pieces of the windows, in the order of their opens and merged. -/
def schedule (ws : List (ℤ × ℤ)) : List (ℤ × ℤ) :=
  let first := ((ws.head?).map (·.1)).getD 0
  (((ws.flatMap (windowPieces first)).insertionSort fun a b => a.1 ≤ b.1).foldl
    mergeWindow []).reverse

/-- The schedule of a day with breaks. -/
def breaksOf (ws : List (ℤ × ℤ)) : Option (List (ℤ × ℤ)) :=
  if ws.length < 2 then none else some (schedule ws)

/-- The heap path reads the whole text again; its arrays hold one window more than there are
commas. -/
def parseMany (session : Session) : Option (List (ℤ × ℤ)) :=
  match readWindows (session.count ',' + 1) session with
  | none => none
  | some ws => breaksOf ws

/-- `parse_session_breaks` with arrays of the given capacity. -/
def parseWithin (capacity : ℕ) (session : Session) : Option (List (ℤ × ℤ)) :=
  if ',' ∈ session then
    match readInline capacity session with
    | .refused => none
    | .windows ws => breaksOf ws
    | .full rest => if rest = [] then none else parseMany session
  else none

/-- The most windows. -/
def maxWindows : ℕ := 8

/-! ## The grammar -/

/-- `HHMM`: an hour up to 24 and a minute up to 59, at most `2400`. -/
def ClockText (text : Session) (minutes : ℤ) : Prop :=
  ∃ a b c d : Char, text = [a, b, c, d] ∧ (a.isDigit ∧ b.isDigit ∧ c.isDigit ∧ d.isDigit) ∧
    digitOf a * 10 + digitOf b ≤ 24 ∧ digitOf c * 10 + digitOf d ≤ 59 ∧
    (digitOf a * 10 + digitOf b = 24 → digitOf c * 10 + digitOf d = 0) ∧
    minutes = (digitOf a * 10 + digitOf b) * 60 + (digitOf c * 10 + digitOf d)

/-- `HHMM-HHMM`, with `2400` only as an end. -/
def WindowText (text : Session) (w : ℤ × ℤ) : Prop :=
  ∃ start stop, text = start ++ '-' :: stop ∧ ClockText start w.1 ∧ w.1 < 1440 ∧ ClockText stop w.2

/-- `HHMM-HHMM,HHMM-HHMM[,...]`, and whatever a colon introduces. -/
inductive WindowsText : Session → List (ℤ × ℤ) → Prop
  | plain {text w} : WindowText text w → WindowsText text [w]
  | days {text w} (list : Session) : WindowText text w → WindowsText (text ++ ':' :: list) [w]
  | more {text w rest ws} : WindowText text w → WindowsText rest ws →
      WindowsText (text ++ ',' :: rest) (w :: ws)

theorem digitOf_bounds {c : Char} (h : c.isDigit = true) : 0 ≤ digitOf c ∧ digitOf c ≤ 9 := by
  have hdigit : 48 ≤ c.toNat ∧ c.toNat ≤ 57 := by
    simpa [Char.isDigit, UInt32.le_iff_toNat_le] using h
  unfold digitOf
  omega

theorem readClock_eq_some {session : Session} {minutes : ℤ} {rest : Session} :
    readClock session = some (minutes, rest) ↔ ∃ text, ClockText text minutes ∧
      session = text ++ rest := by
  constructor
  · intro h
    unfold readClock at h
    split at h
    · rename_i a b c d tail
      split at h
      · rename_i hdigits
        dsimp only at h
        split at h
        · cases h
        · rename_i hbounds
          cases h
          refine ⟨[a, b, c, d], ⟨a, b, c, d, rfl, hdigits, ?_⟩, rfl⟩
          omega
      · cases h
    · cases h
  · rintro ⟨text, ⟨a, b, c, d, rfl, hdigits, hh, mm, hlast, rfl⟩, rfl⟩
    change readClock (a :: b :: c :: d :: rest) = _
    unfold readClock
    dsimp only
    rw [if_pos hdigits, if_neg (by omega)]

/-- A window is read exactly from its text. -/
theorem readWindow_eq_some {session : Session} {w : ℤ × ℤ} {rest : Session} :
    readWindow session = some (w, rest) ↔ ∃ text, WindowText text w ∧ session = text ++ rest := by
  unfold readWindow WindowText
  constructor
  · intro h
    cases hstart : readClock session with
    | none => simp [hstart] at h
    | some read =>
      obtain ⟨start, after⟩ := read
      rw [hstart] at h
      dsimp only at h
      split at h
      · cases h
      · rename_i hlt
        split at h
        · rename_i tail
          cases hstop : readClock tail with
          | none => simp [hstop] at h
          | some read' =>
            obtain ⟨stop, after'⟩ := read'
            rw [hstop] at h
            cases h
            obtain ⟨text, hclock, rfl⟩ := readClock_eq_some.mp hstart
            obtain ⟨text', hclock', rfl⟩ := readClock_eq_some.mp hstop
            exact ⟨text ++ '-' :: text', ⟨text, text', rfl, hclock, not_le.mp hlt, hclock'⟩,
              by simp⟩
        · cases h
  · rintro ⟨text, ⟨start, stop, rfl, hclock, hlt, hclock'⟩, rfl⟩
    rw [List.append_assoc, List.cons_append, readClock_eq_some.mpr ⟨start, hclock, rfl⟩]
    dsimp only
    rw [if_neg (not_le.mpr hlt)]
    simp [readClock_eq_some.mpr ⟨stop, hclock', rfl⟩]

/-- Windows read are the grammar's. -/
theorem windowsText_of_readWindows {fuel : ℕ} {session : Session} {ws : List (ℤ × ℤ)}
    (h : readWindows fuel session = some ws) : WindowsText session ws := by
  induction fuel generalizing session ws with
  | zero => cases h
  | succ fuel ih =>
    unfold readWindows at h
    obtain ⟨⟨start, rest⟩, hstart, hread⟩ := Option.bind_eq_some_iff.mp h
    dsimp only at hread
    split at hread
    · cases hread
    · rename_i hlt
      split at hread
      · rename_i tail
        obtain ⟨⟨stop, after⟩, hstop, hafter⟩ := Option.bind_eq_some_iff.mp hread
        dsimp only at hafter
        obtain ⟨text, hclock, rfl⟩ := readClock_eq_some.mp hstart
        obtain ⟨text', hclock', rfl⟩ := readClock_eq_some.mp hstop
        have hwindow : WindowText (text ++ '-' :: text') (start, stop) :=
          ⟨text, text', rfl, hclock, not_le.mp hlt, hclock'⟩
        split at hafter
        · cases hafter
          rw [List.append_nil]
          exact .plain hwindow
        · cases hafter
          rw [← List.cons_append, ← List.append_assoc]
          exact .days _ hwindow
        · obtain ⟨windows, hwindows, hws⟩ := Option.bind_eq_some_iff.mp hafter
          cases hws
          rw [← List.cons_append, ← List.append_assoc]
          exact .more hwindow (ih hwindows)
        · cases hafter
      · cases hread

theorem readWindows_of_windowsText {session : Session} {ws : List (ℤ × ℤ)}
    (h : WindowsText session ws) :
    ∀ fuel, ws.length ≤ fuel → readWindows fuel session = some ws := by
  have hread : ∀ {text w}, WindowText text w → ∀ tail, ∃ rest,
      readClock (text ++ tail) = some (w.1, '-' :: rest) ∧ w.1 < 1440 ∧
        readClock rest = some (w.2, tail) := by
    rintro text w ⟨start, stop, rfl, hclock, hlt, hclock'⟩ tail
    refine ⟨stop ++ tail, readClock_eq_some.mpr ⟨start, hclock, by simp⟩, hlt, ?_⟩
    exact readClock_eq_some.mpr ⟨stop, hclock', rfl⟩
  induction h with
  | plain hwindow =>
    intro fuel hfuel
    obtain ⟨fuel, rfl⟩ : ∃ n, fuel = n + 1 := ⟨fuel - 1, by simp at hfuel; omega⟩
    obtain ⟨rest, hstart, hlt, hstop⟩ := hread hwindow []
    rw [List.append_nil] at hstart
    simp [readWindows, hstart, not_le.mpr hlt, hstop]
  | days list hwindow =>
    intro fuel hfuel
    obtain ⟨fuel, rfl⟩ : ∃ n, fuel = n + 1 := ⟨fuel - 1, by simp at hfuel; omega⟩
    obtain ⟨rest, hstart, hlt, hstop⟩ := hread hwindow (':' :: list)
    simp [readWindows, hstart, not_le.mpr hlt, hstop]
  | @more text w after ws hwindow hafter ih =>
    intro fuel hfuel
    obtain ⟨fuel, rfl⟩ : ∃ n, fuel = n + 1 := ⟨fuel - 1, by simp at hfuel; omega⟩
    obtain ⟨rest, hstart, hlt, hstop⟩ := hread hwindow (',' :: after)
    simp [readWindows, hstart, not_le.mpr hlt, hstop, ih fuel (by simpa using hfuel)]

theorem WindowsText.unique {session : Session} {ws ws' : List (ℤ × ℤ)} (h : WindowsText session ws)
    (h' : WindowsText session ws') : ws = ws' := by
  have hread := readWindows_of_windowsText h _ (le_max_left _ ws'.length)
  rw [readWindows_of_windowsText h' _ (le_max_right _ _)] at hread
  cases hread
  rfl

theorem WindowsText.length_le {session : Session} {ws : List (ℤ × ℤ)} (h : WindowsText session ws) :
    ws.length ≤ session.count ',' + 1 := by
  induction h with
  | plain => simp
  | days => simp
  | more hwindow hrest ih =>
    simp only [List.length_cons, List.count_append, List.count_cons_self]
    omega

theorem windowsText_ne_nil {session : Session} {ws : List (ℤ × ℤ)} (h : WindowsText session ws) :
    session ≠ [] := by
  rintro rfl
  have hread := readWindows_of_windowsText h _ le_rfl
  cases ws with
  | nil => cases hread
  | cons w ws => cases hread

/-! ## The paths agree -/

/-- Inline windows are the grammar's. -/
theorem readInline_windows {room : ℕ} {session : Session} {ws : List (ℤ × ℤ)}
    (h : readInline room session = .windows ws) : WindowsText session ws := by
  induction room generalizing session ws with
  | zero => cases h
  | succ room ih =>
    unfold readInline at h
    split at h
    · cases h
    · rename_i w hread
      cases h
      obtain ⟨text, hwindow, rfl⟩ := readWindow_eq_some.mp hread
      rw [List.append_nil]
      exact .plain hwindow
    · rename_i w list hread
      cases h
      obtain ⟨text, hwindow, rfl⟩ := readWindow_eq_some.mp hread
      exact .days list hwindow
    · rename_i w rest hread
      obtain ⟨text, hwindow, rfl⟩ := readWindow_eq_some.mp hread
      cases hinner : readInline room rest with
      | refused =>
        rw [hinner] at h
        cases h
      | full left =>
        rw [hinner] at h
        cases h
      | windows ws' =>
        rw [hinner] at h
        cases h
        exact .more hwindow (ih hinner)
    · cases h

/-- A well formed text goes on after its first window with nothing, a colon or a comma. -/
theorem WindowsText.readWindow {session : Session} {ws : List (ℤ × ℤ)}
    (h : WindowsText session ws) :
    ∃ w, readWindow session = some (w, []) ∨ (∃ list, readWindow session = some (w, ':' :: list)) ∨
      ∃ rest ws', readWindow session = some (w, ',' :: rest) ∧ WindowsText rest ws' := by
  cases h with
  | @plain _ w hwindow => exact ⟨w, .inl (readWindow_eq_some.mpr ⟨_, hwindow, by simp⟩)⟩
  | @days _ w list hwindow =>
    exact ⟨w, .inr (.inl ⟨list, readWindow_eq_some.mpr ⟨_, hwindow, rfl⟩⟩)⟩
  | @more _ w rest ws' hwindow hrest =>
    exact ⟨w, .inr (.inr ⟨rest, ws', readWindow_eq_some.mpr ⟨_, hwindow, rfl⟩, hrest⟩)⟩

theorem readInline_refused {room : ℕ} {session : Session} (h : readInline room session = .refused)
    (ws : List (ℤ × ℤ)) : ¬ WindowsText session ws := by
  induction room generalizing session ws with
  | zero => cases h
  | succ room ih =>
    intro htext
    unfold readInline at h
    obtain ⟨w, hread | ⟨list, hread⟩ | ⟨rest, ws', hread, hrest⟩⟩ := htext.readWindow
    · rw [hread] at h
      cases h
    · rw [hread] at h
      cases h
    · rw [hread] at h
      change (readInline room rest).push w = .refused at h
      cases hinner : readInline room rest with
      | refused => exact ih hinner ws' hrest
      | full left =>
        rw [hinner] at h
        cases h
      | windows ws'' =>
        rw [hinner] at h
        cases h

theorem readInline_full {room : ℕ} {session rest : Session}
    (h : readInline room session = .full rest)
    {ws : List (ℤ × ℤ)} (htext : WindowsText session ws) : rest ≠ [] := by
  induction room generalizing session ws with
  | zero =>
    cases h
    exact windowsText_ne_nil htext
  | succ room ih =>
    unfold readInline at h
    obtain ⟨w, hread | ⟨list, hread⟩ | ⟨after, ws', hread, hafter⟩⟩ := htext.readWindow
    · rw [hread] at h
      cases h
    · rw [hread] at h
      cases h
    · rw [hread] at h
      change (readInline room after).push w = .full rest at h
      cases hinner : readInline room after with
      | refused =>
        rw [hinner] at h
        cases h
      | full left =>
        rw [hinner] at h
        cases h
        exact ih hinner hafter
      | windows ws'' =>
        rw [hinner] at h
        cases h

theorem parseMany_eq {session : Session} {ws : List (ℤ × ℤ)} (h : WindowsText session ws) :
    parseMany session = breaksOf ws := by
  unfold parseMany
  rw [readWindows_of_windowsText h _ h.length_le]

theorem parseMany_eq_none {session : Session} (h : ∀ ws, ¬ WindowsText session ws) :
    parseMany session = none := by
  unfold parseMany
  cases hread : readWindows (session.count ',' + 1) session with
  | none => rfl
  | some ws => exact absurd (windowsText_of_readWindows hread) (h ws)

theorem comma_mem {session : Session} {ws : List (ℤ × ℤ)} (h : WindowsText session ws)
    (h2 : 2 ≤ ws.length) :
    ',' ∈ session := by
  have hle := h.length_le
  exact List.count_pos_iff.mp (by omega)

theorem parseWithin_eq {session : Session} {ws : List (ℤ × ℤ)} (h : WindowsText session ws)
    (capacity : ℕ) :
    parseWithin capacity session = breaksOf ws := by
  unfold parseWithin
  by_cases hcomma : ',' ∈ session
  · rw [if_pos hcomma]
    cases hinline : readInline capacity session with
    | refused => exact absurd h (readInline_refused hinline ws)
    | windows ws' =>
      dsimp only
      rw [(readInline_windows hinline).unique h]
    | full rest =>
      dsimp only
      rw [if_neg (readInline_full hinline h), parseMany_eq h]
  · rw [if_neg hcomma]
    unfold breaksOf
    have hlt : ws.length < 2 := by
      by_contra hge
      exact hcomma (comma_mem h (by omega))
    rw [if_pos hlt]

theorem parseWithin_eq_none {session : Session} (h : ∀ ws, ¬ WindowsText session ws)
    (capacity : ℕ) :
    parseWithin capacity session = none := by
  unfold parseWithin
  split
  · cases hinline : readInline capacity session with
    | refused => rfl
    | windows ws => exact absurd (readInline_windows hinline) (h ws)
    | full rest =>
      dsimp only
      split
      · rfl
      · exact parseMany_eq_none h
  · rfl

/-- The reader has room for `maxWindows`. -/
theorem parseSessionBreaks_eq (session : Session) :
    parseSessionBreaks session = parseWithin maxWindows session := by
  unfold parseSessionBreaks
  by_cases htext : ∃ ws, WindowsText session ws
  · obtain ⟨ws, htext⟩ := htext
    have hfuel : ws.length ≤ session.length + 1 :=
      htext.length_le.trans (Nat.add_le_add_right List.count_le_length 1)
    rw [readWindows_of_windowsText htext _ hfuel, parseWithin_eq htext]
    unfold breaksOf
    by_cases h2 : 2 ≤ ws.length
    · rw [if_pos (comma_mem htext h2), if_neg (not_lt.mpr h2)]
      cases ws with
      | nil => simp at h2
      | cons first ws =>
        cases ws with
        | nil => simp at h2
        | cons second rest => rfl
    · rw [if_pos (not_le.mp h2)]
      cases ws with
      | nil => simp
      | cons first ws =>
        cases ws with
        | nil => simp
        | cons second rest => simp at h2
  · have hnone := not_exists.mp htext
    rw [parseWithin_eq_none hnone]
    split
    · cases hread : readWindows (session.length + 1) session with
      | none => rfl
      | some ws => exact absurd (windowsText_of_readWindows hread) (hnone ws)
    · rfl

/-! ## The union of the windows -/

/-- A window's end on the clock that starts with it: the next day at or before its start. -/
def windowEnd (w : ℤ × ℤ) : ℤ := if w.2 ≤ w.1 then w.2 + 1440 else w.2

/-- A minute of the session day, counted from the first open, at which a window is open. -/
def OpensAt (first : ℤ) (w : ℤ × ℤ) (x : ℤ) : Prop :=
  ∃ minute, w.1 ≤ minute ∧ minute < windowEnd w ∧ (minute - first) % 1440 = x

/-- A pair as a span. -/
def toSpan (p : ℤ × ℤ) : EpochSpan := ⟨p.1, p.2⟩

theorem map_mergeWindow (out : List (ℤ × ℤ)) (piece : ℤ × ℤ) :
    (mergeWindow out piece).map toSpan = mergeSpan (out.map toSpan) (toSpan piece) := by
  cases out with
  | nil => rfl
  | cons back rest =>
    change _ = mergeSpan (toSpan back :: rest.map toSpan) (toSpan piece)
    by_cases hle : piece.1 ≤ back.2
    · have hmerge : mergeWindow (back :: rest) piece = (back.1, max back.2 piece.2) :: rest :=
        if_pos hle
      have hspan : mergeSpan (toSpan back :: rest.map toSpan) (toSpan piece)
          = if piece.2 > back.2 then ⟨back.1, piece.2⟩ :: rest.map toSpan
            else toSpan back :: rest.map toSpan := if_neg (not_lt.mpr hle)
      rw [hmerge, hspan]
      split
      · rename_i hgt
        rw [max_eq_right (by omega)]
        rfl
      · rename_i hge
        rw [max_eq_left (by omega)]
        rfl
    · have hmerge : mergeWindow (back :: rest) piece = piece :: back :: rest := if_neg hle
      have hspan : mergeSpan (toSpan back :: rest.map toSpan) (toSpan piece)
          = toSpan piece :: toSpan back :: rest.map toSpan := if_pos (not_le.mp hle)
      rw [hmerge, hspan]
      rfl

theorem map_foldl_mergeWindow (pieces out : List (ℤ × ℤ)) :
    (pieces.foldl mergeWindow out).map toSpan = (pieces.map toSpan).foldl mergeSpan
    (out.map toSpan) := by
  induction pieces generalizing out with
  | nil => rfl
  | cons piece pieces ih =>
    rw [List.foldl_cons, ih, map_mergeWindow, List.map_cons, List.foldl_cons]

theorem map_schedule (ws : List (ℤ × ℤ)) :
    (schedule ws).map toSpan
      = mergeSpans ((ws.flatMap (windowPieces (((ws.head?).map (·.1)).getD 0))).map toSpan) := by
  unfold schedule mergeSpans
  rw [List.map_reverse, map_foldl_mergeWindow, List.map_nil]
  congr 2
  exact List.map_insertionSort _ _ _ _ fun a _ b _ => Iff.rfl

/-- The clocks of a window are those of a day. -/
structure DayWindow (w : ℤ × ℤ) : Prop where
  start : 0 ≤ w.1 ∧ w.1 < 1440
  stop : 0 ≤ w.2 ∧ w.2 ≤ 1440

theorem DayWindow.length {w : ℤ × ℤ} (h : DayWindow w) :
    w.1 < windowEnd w ∧ windowEnd w ≤ w.1 + 1440 := by
  obtain ⟨hstart, hstop⟩ := h
  unfold windowEnd
  split <;> omega

theorem windowPieces_eq (first : ℤ) (w : ℤ × ℤ) :
    windowPieces first w =
      if (w.1 - first) % 1440 + (windowEnd w - w.1) ≤ 1440 then
        [((w.1 - first) % 1440, (w.1 - first) % 1440 + (windowEnd w - w.1))]
      else [((w.1 - first) % 1440, 1440),
        (0, (w.1 - first) % 1440 + (windowEnd w - w.1) - 1440)] := by
  have hlength : (if w.2 - w.1 ≤ 0 then w.2 - w.1 + 1440 else w.2 - w.1) = windowEnd w - w.1 := by
    unfold windowEnd
    split
    · rw [if_pos (by omega)]
      omega
    · rw [if_neg (by omega)]
  unfold windowPieces
  dsimp only
  rw [hlength]

theorem windowPieces_bounds {first : ℤ} {w : ℤ × ℤ} (h : DayWindow w) :
    ∀ p ∈ windowPieces first w, 0 ≤ p.1 ∧ p.1 < p.2 ∧ p.2 ≤ 1440 := by
  have hlength := h.length
  intro p hp
  rw [windowPieces_eq] at hp
  split at hp
  · rw [List.mem_singleton.mp hp]
    dsimp only
    omega
  · rw [List.mem_pair] at hp
    obtain rfl | rfl := hp
    · dsimp only
      omega
    · dsimp only
      omega

/-- The pieces are the window's minutes. -/
theorem windowPieces_opensAt {first : ℤ} {w : ℤ × ℤ} (h : DayWindow w) (x : ℤ) :
    (∃ p ∈ windowPieces first w, p.1 ≤ x ∧ x < p.2) ↔ OpensAt first w x := by
  have hlength := h.length
  rw [windowPieces_eq]
  unfold OpensAt
  obtain ⟨opens, hopens⟩ : ∃ opens, opens = (w.1 - first) % 1440 := ⟨_, rfl⟩
  rw [← hopens]
  split
  · constructor
    · rintro ⟨p, hp, hx⟩
      rw [List.mem_singleton.mp hp] at hx
      dsimp only at hx
      exact ⟨w.1 + (x - opens), by omega, by omega, by omega⟩
    · rintro ⟨minute, hlow, hhigh, rfl⟩
      refine ⟨_, List.mem_singleton_self _, ?_⟩
      dsimp only
      omega
  · constructor
    · rintro ⟨p, hp, hx⟩
      rw [List.mem_pair] at hp
      obtain rfl | rfl := hp
      · dsimp only at hx
        exact ⟨w.1 + (x - opens), by omega, by omega, by omega⟩
      · dsimp only at hx
        exact ⟨w.1 + (x + 1440 - opens), by omega, by omega, by omega⟩
    · rintro ⟨minute, hlow, hhigh, rfl⟩
      -- before the cut the minute lies in the first piece, after it in the second
      by_cases hcut : opens + (minute - w.1) < 1440
      · refine ⟨_, List.mem_cons_self, ?_⟩
        dsimp only
        omega
      · refine ⟨_, List.mem_cons_of_mem _ (List.mem_singleton_self _), ?_⟩
        dsimp only
        omega

/-- Intervals of positive length in the day, the first from its start, with gaps between them. -/
structure DaySchedule (spans : List (ℤ × ℤ)) : Prop where
  bounds : ∀ p ∈ spans, 0 ≤ p.1 ∧ p.1 < p.2 ∧ p.2 ≤ 1440
  gaps : spans.Pairwise fun p q => p.2 < q.1
  first : ∃ p ∈ spans.head?, p.1 = 0

theorem covers_map {spans : List (ℤ × ℤ)} {x : ℤ} :
    Covers (spans.map toSpan) x ↔ ∃ p ∈ spans, p.1 ≤ x ∧ x < p.2 := by
  constructor
  · rintro ⟨s, hs, hx⟩
    obtain ⟨p, hp, rfl⟩ := List.mem_map.mp hs
    exact ⟨p, hp, hx⟩
  · rintro ⟨p, hp, hx⟩
    exact ⟨toSpan p, List.mem_map_of_mem hp, hx⟩

/-- The schedule is the windows' union. -/
theorem schedule_spec {w : ℤ × ℤ} {ws : List (ℤ × ℤ)} (h : ∀ v ∈ w :: ws, DayWindow v) :
    DaySchedule (schedule (w :: ws)) ∧
      ∀ x, (∃ p ∈ schedule (w :: ws), p.1 ≤ x ∧ x < p.2) ↔ ∃ v ∈ w :: ws, OpensAt w.1 v x := by
  have hpieces : ∀ p ∈ (w :: ws).flatMap (windowPieces w.1), 0 ≤ p.1 ∧ p.1 < p.2 ∧ p.2 ≤ 1440 := by
    intro p hp
    obtain ⟨v, hv, hp⟩ := List.mem_flatMap.mp hp
    exact windowPieces_bounds (h v hv) p hp
  have hlengths : ∀ s ∈ ((w :: ws).flatMap (windowPieces w.1)).map toSpan, s.startMs < s.endMs := by
    intro s hs
    obtain ⟨p, hp, rfl⟩ := List.mem_map.mp hs
    exact (hpieces p hp).2.1
  have hmap : (schedule (w :: ws)).map toSpan
      = mergeSpans (((w :: ws).flatMap (windowPieces w.1)).map toSpan) := map_schedule (w :: ws)
  obtain ⟨hseparated, hcovers⟩ := mergeSpans_spec hlengths
  rw [← hmap] at hseparated hcovers
  have hunion : ∀ x, (∃ p ∈ schedule (w :: ws), p.1 ≤ x ∧ x < p.2) ↔
      ∃ v ∈ w :: ws, OpensAt w.1 v x := by
    intro x
    rw [← covers_map, hcovers x, covers_map]
    constructor
    · rintro ⟨p, hp, hx⟩
      obtain ⟨v, hv, hp⟩ := List.mem_flatMap.mp hp
      exact ⟨v, hv, (windowPieces_opensAt (h v hv) x).mp ⟨p, hp, hx⟩⟩
    · rintro ⟨v, hv, hx⟩
      obtain ⟨p, hp, hx⟩ := (windowPieces_opensAt (h v hv) x).mpr hx
      exact ⟨p, List.mem_flatMap.mpr ⟨v, hv, hp⟩, hx⟩
  have hday : ∀ x, (∃ p ∈ schedule (w :: ws), p.1 ≤ x ∧ x < p.2) → 0 ≤ x ∧ x < 1440 := by
    intro x hx
    obtain ⟨v, -, minute, -, -, rfl⟩ := (hunion x).mp hx
    omega
  have hpositive : ∀ p ∈ schedule (w :: ws), p.1 < p.2 := fun p hp =>
    hseparated.positive (toSpan p) (List.mem_map_of_mem hp)
  refine ⟨⟨?_, ?_, ?_⟩, hunion⟩
  · intro p hp
    have hlt := hpositive p hp
    have hlow := hday p.1 ⟨p, hp, le_rfl, hlt⟩
    have hhigh := hday (p.2 - 1) ⟨p, hp, by omega, by omega⟩
    omega
  · exact List.pairwise_map.mp hseparated.gaps
  · -- the first window is open at the start of the day, and nothing opens before it
    have hstart : ∃ p ∈ schedule (w :: ws), p.1 ≤ 0 ∧ 0 < p.2 := by
      refine (hunion 0).mpr ⟨w, List.mem_cons_self, w.1, le_rfl,
        (h w List.mem_cons_self).length.1, ?_⟩
      omega
    obtain ⟨p, hp, hle, hlt⟩ := hstart
    cases hspans : schedule (w :: ws) with
    | nil =>
      rw [hspans] at hp
      cases hp
    | cons q qs =>
      rw [hspans] at hp hseparated hday hpositive
      have hq := hpositive q List.mem_cons_self
      have hlow := hday q.1 ⟨q, List.mem_cons_self, le_rfl, hq⟩
      have hfirst := hseparated.start_le (x := 0) (covers_map.mpr ⟨p, hp, hle, hlt⟩)
      refine ⟨q, rfl, ?_⟩
      change q.1 ≤ 0 at hfirst
      omega

/-! ## The parser -/

theorem ClockText.bounds {text : Session} {minutes : ℤ} (h : ClockText text minutes) :
    0 ≤ minutes ∧ minutes ≤ 1440 := by
  obtain ⟨a, b, c, d, -, ⟨ha, hb, hc, hd⟩, hhour, hminute, hlast, rfl⟩ := h
  have := digitOf_bounds ha
  have := digitOf_bounds hb
  have := digitOf_bounds hc
  have := digitOf_bounds hd
  omega

theorem WindowText.dayWindow {text : Session} {w : ℤ × ℤ} (h : WindowText text w) :
    DayWindow w := by
  obtain ⟨start, stop, -, hstart, hlt, hstop⟩ := h
  exact ⟨⟨hstart.bounds.1, hlt⟩, hstop.bounds⟩

theorem WindowsText.dayWindow {session : Session} {ws : List (ℤ × ℤ)} (h : WindowsText session ws) :
    ∀ v ∈ ws, DayWindow v := by
  induction h with
  | plain hwindow =>
    intro v hv
    rw [List.mem_singleton.mp hv]
    exact hwindow.dayWindow
  | days list hwindow =>
    intro v hv
    rw [List.mem_singleton.mp hv]
    exact hwindow.dayWindow
  | more hwindow hrest ih =>
    intro v hv
    obtain rfl | hv := List.mem_cons.mp hv
    · exact hwindow.dayWindow
    · exact ih v hv

theorem readInline_of_windowsText {session : Session} {ws : List (ℤ × ℤ)}
    (h : WindowsText session ws) :
    ∀ room, ws.length ≤ room → readInline room session = .windows ws := by
  induction h with
  | @plain text w hwindow =>
    intro room hroom
    obtain ⟨room, rfl⟩ : ∃ n, room = n + 1 := ⟨room - 1, by simp at hroom; omega⟩
    rw [readInline, readWindow_eq_some.mpr ⟨text, hwindow, (List.append_nil text).symm⟩]
  | @days text w list hwindow =>
    intro room hroom
    obtain ⟨room, rfl⟩ : ∃ n, room = n + 1 := ⟨room - 1, by simp at hroom; omega⟩
    rw [readInline, readWindow_eq_some.mpr ⟨text, hwindow, rfl⟩]
    rfl
  | @more text w rest ws hwindow hrest ih =>
    intro room hroom
    obtain ⟨room, rfl⟩ : ∃ n, room = n + 1 := ⟨room - 1, by simp at hroom; omega⟩
    rw [readInline, readWindow_eq_some.mpr ⟨text, hwindow, rfl⟩]
    change (readInline room rest).push w = _
    rw [ih room (by simpa using hroom)]
    rfl

/-- What a text of the windows `w :: ws` is parsed as: their union around the clock, whatever room
the arrays have; with room for all of them the parser never leaves them. -/
def ScheduledAs (session : Session) (w : ℤ × ℤ) (ws : List (ℤ × ℤ)) : Prop :=
  ∃ spans, parseWithin maxWindows session = some spans ∧ DaySchedule spans ∧
    (∀ x, (∃ p ∈ spans, p.1 ≤ x ∧ x < p.2) ↔ ∃ v ∈ w :: ws, OpensAt w.1 v x) ∧
    ∀ capacity, parseWithin capacity session = some spans ∧
      (ws.length < capacity → readInline capacity session = .windows (w :: ws))

/-- What follows a colon is a list of days, `1` for Sunday. -/
def DayListed (session : Session) : Prop :=
  ∀ windows list, session = windows ++ ':' :: list → list ≠ [] ∧ ∀ c ∈ list, '1' ≤ c ∧ c ≤ '7'

/-- The comment over the parser, for one text: two windows or more, with or without a list of days,
are accepted and nothing else is. -/
structure ParsedAsDocumented (session : Session) : Prop where
  accepts : (parseWithin maxWindows session).isSome = true ↔
    ∃ ws, WindowsText session ws ∧ 2 ≤ ws.length ∧ DayListed session
  scheduled : ∀ w ws, WindowsText session (w :: ws) → ws ≠ [] → DayListed session →
    ScheduledAs session w ws

/-- The parser accepts the texts of two windows or more, whatever follows a colon. -/
theorem parse_windows (session : Session) :
    ((parseWithin maxWindows session).isSome = true ↔ ∃ ws, WindowsText session ws ∧
      2 ≤ ws.length) ∧
    ∀ w ws, WindowsText session (w :: ws) → ws ≠ [] → ScheduledAs session w ws := by
  refine ⟨⟨?_, ?_⟩, ?_⟩
  · intro haccepted
    by_cases htext : ∃ ws, WindowsText session ws
    · obtain ⟨ws, htext⟩ := htext
      refine ⟨ws, htext, ?_⟩
      by_contra hlt
      rw [parseWithin_eq htext, breaksOf, if_pos (not_le.mp hlt)] at haccepted
      cases haccepted
    · rw [parseWithin_eq_none (not_exists.mp htext)] at haccepted
      cases haccepted
  · rintro ⟨ws, htext, h2⟩
    rw [parseWithin_eq htext, breaksOf, if_neg (not_lt.mpr h2)]
    rfl
  · intro w ws htext hmore
    have hpos := List.length_pos_of_ne_nil hmore
    have hbreaks : breaksOf (w :: ws) = some (schedule (w :: ws)) := by
      refine if_neg ?_
      rw [List.length_cons]
      omega
    obtain ⟨hday, hunion⟩ := schedule_spec htext.dayWindow
    refine ⟨schedule (w :: ws), (parseWithin_eq htext _).trans hbreaks, hday, hunion, ?_⟩
    intro capacity
    refine ⟨(parseWithin_eq htext capacity).trans hbreaks, ?_⟩
    intro hroom
    exact readInline_of_windowsText htext capacity (by simpa using hroom)

/-- The comment is right of a text exactly when two windows or more are followed by nothing or by a
list of days: what stands behind the colon is never read. Every text of such windows is parsed as
their union around the clock. -/
theorem parse_exact (session : Session) :
    (ParsedAsDocumented session ↔
      ((∃ ws, WindowsText session ws ∧ 2 ≤ ws.length) → DayListed session)) ∧
    ∀ w ws, WindowsText session (w :: ws) → ws ≠ [] → ScheduledAs session w ws := by
  obtain ⟨haccepts, hscheduled⟩ := parse_windows session
  refine ⟨⟨fun hdoc htext => ?_, fun hlisted => ⟨?_, fun w ws htext hmore _ => ?_⟩⟩, hscheduled⟩
  · obtain ⟨ws, -, -, hlisted⟩ := hdoc.accepts.mp (haccepts.mpr htext)
    exact hlisted
  · rw [haccepts]
    constructor
    · rintro ⟨ws, htext, h2⟩
      exact ⟨ws, htext, h2, hlisted ⟨ws, htext, h2⟩⟩
    · rintro ⟨ws, htext, h2, -⟩
      exact ⟨ws, htext, h2⟩
  · exact hscheduled w ws htext hmore

/-- The windows of `0900-1130,1230-1500` and their days. -/
def tokyo : Session := "0900-1130,1230-1500:23456".toList

theorem tokyo_windows : WindowsText tokyo [(540, 690), (750, 900)] :=
  windowsText_of_readWindows (show readWindows 3 tokyo = some _ by decide +kernel)

theorem parse_exact_tokyo : ScheduledAs tokyo (540, 690) [(750, 900)] :=
  (parse_exact tokyo).2 _ _ tokyo_windows (by decide)

/-- Behind a colon anything is accepted. -/
theorem parse_undated : ¬ ParsedAsDocumented "0900-1130,1230-1500:x".toList := by
  intro hdoc
  obtain ⟨ws, -, -, hlisted⟩ := hdoc.accepts.mp (by decide +kernel)
  have hdays := (hlisted "0900-1130,1230-1500".toList ['x'] rfl).2 'x' List.mem_cons_self
  exact absurd hdays (by decide)

/-! ## The hours of a declared session -/

/-- A session text: none, `24x7`, or windows. -/
def Declared (session : Session) : Prop :=
  session = [] ∨ session = anyHours ∨ ∃ ws, WindowsText session ws

/-- A session day opens on its date and lasts at most a day. -/
structure DayHours (session : Session) : Prop where
  opens : 0 ≤ sessionOpenOffsetMinutes session ∧ sessionOpenOffsetMinutes session < 1440
  length : 0 < sessionLengthMinutes session ∧ sessionLengthMinutes session ≤ 1440

theorem WindowsText.head {session : Session} {ws : List (ℤ × ℤ)} (h : WindowsText session ws) :
    ∃ text w tail ws', WindowText text w ∧ session = text ++ tail ∧ ws = w :: ws' := by
  cases h with
  | @plain _ w hwindow => exact ⟨session, w, [], [], hwindow, by simp, rfl⟩
  | @days text w list hwindow => exact ⟨text, w, _, [], hwindow, rfl, rfl⟩
  | @more text w rest ws' hwindow hrest => exact ⟨text, w, _, ws', hwindow, rfl, rfl⟩

/-- What the two scans read of a window. -/
theorem WindowText.scanned {text : Session} {w : ℤ × ℤ} (h : WindowText text w) (tail : Session) :
    sessionOpenOffsetMinutes (text ++ tail) = w.1 ∧
      firstWindowLengthMinutes (text ++ tail) = windowEnd w - w.1 := by
  obtain ⟨start, stop, rfl, ⟨a, b, c, d, rfl, ⟨ha, hb, hc, hd⟩, hh, hm, -, hw⟩, -,
    ⟨a', b', c', d', rfl, ⟨ha', hb', hc', hd'⟩, hh', hm', -, hw'⟩⟩ := h
  have := digitOf_bounds hc
  have := digitOf_bounds hd
  have := digitOf_bounds hc'
  have := digitOf_bounds hd'
  have hdash : ('-' : Char).isDigit = false := rfl
  have hopens : openDigits (a :: b :: c :: d :: '-' :: a' :: b' :: c' :: d' :: tail) 0 0
      = ((digitOf a * 10 + digitOf b) * 10 + digitOf c) * 10 + digitOf d := by
    simp [openDigits, ha, hb, hc, hd]
  have hgroups : clockGroups (a :: b :: c :: d :: '-' :: a' :: b' :: c' :: d' :: tail) 0 0
      = (((digitOf a * 10 + digitOf b) * 10 + digitOf c) * 10 + digitOf d)
        :: (((digitOf a' * 10 + digitOf b') * 10 + digitOf c') * 10 + digitOf d')
        :: clockGroups tail 0 0 := by
    simp [clockGroups, ha, hb, hc, hd, ha', hb', hc', hd', hdash]
  have hdeclared : ¬ (a :: b :: c :: d :: '-' :: a' :: b' :: c' :: d' :: tail = [] ∨
      a :: b :: c :: d :: '-' :: a' :: b' :: c' :: d' :: tail = anyHours) := by
    simp [anyHours]
  change sessionOpenOffsetMinutes (a :: b :: c :: d :: '-' :: a' :: b' :: c' :: d' :: tail) = _ ∧
    firstWindowLengthMinutes (a :: b :: c :: d :: '-' :: a' :: b' :: c' :: d' :: tail) = _
  unfold sessionOpenOffsetMinutes firstWindowLengthMinutes windowEnd clockMinutes
  rw [if_neg hdeclared, if_neg hdeclared, hopens, hgroups]
  dsimp only
  refine ⟨by omega, ?_⟩
  split
  · rw [if_pos (by omega)]
    omega
  · rw [if_neg (by omega)]
    omega

theorem lastClose_bounds {spans : List (ℤ × ℤ)} (h : DaySchedule spans) :
    0 < lastClose spans ∧ lastClose spans ≤ 1440 := by
  unfold lastClose
  obtain ⟨p, hp, -⟩ := h.first
  cases hlast : spans.getLast? with
  | none =>
    rw [List.getLast?_eq_none_iff] at hlast
    rw [hlast] at hp
    cases hp
  | some q =>
    have hq := h.bounds q (List.mem_of_getLast? hlast)
    change 0 < q.2 ∧ q.2 ≤ 1440
    omega

theorem Declared.dayHours {session : Session} (h : Declared session) : DayHours session := by
  obtain rfl | rfl | ⟨ws, htext⟩ := h
  · exact ⟨by decide, by decide⟩
  · exact ⟨by decide, by decide⟩
  · obtain ⟨text, w, tail, ws', hwindow, hsession, rfl⟩ := htext.head
    have hday := hwindow.dayWindow
    obtain ⟨hopen, hlength⟩ := hwindow.scanned tail
    rw [← hsession] at hopen hlength
    refine ⟨?_, ?_⟩
    · rw [hopen]
      exact hday.start
    · unfold sessionLengthMinutes
      rw [parseSessionBreaks_eq, parseWithin_eq htext]
      by_cases hone : (w :: ws').length < 2
      · rw [breaksOf, if_pos hone]
        dsimp only
        have := hday.length
        rw [hlength]
        omega
      · rw [breaksOf, if_neg hone]
        exact lastClose_bounds (schedule_spec htext.dayWindow).1

theorem stamp_cases (session : Session) :
    sessionDayStampOffsetMinutes session = sessionOpenOffsetMinutes session ∨
      (sessionOpenOffsetMinutes session = 1080 ∧ sessionDayStampOffsetMinutes session = 1020) := by
  unfold sessionDayStampOffsetMinutes
  dsimp only
  split
  · rename_i h
    exact .inr ⟨h.1, rfl⟩
  · exact .inl rfl

theorem shiftDays_eq {session : Session} (h : DayHours session) :
    sessionTradingDateShiftDays session
      = (sessionOpenOffsetMinutes session + sessionLengthMinutes session - 1) / 1440 := by
  obtain ⟨hopens, hlength⟩ := h
  exact Int.tdiv_eq_ediv_of_nonneg (by omega)

theorem DayHours.stamp {session : Session} (h : DayHours session) :
    0 ≤ sessionDayStampOffsetMinutes session ∧ sessionDayStampOffsetMinutes session < 1440 ∧
      sessionDayStampOffsetMinutes session ≤ sessionOpenOffsetMinutes session := by
  obtain ⟨hopens, hlength⟩ := h
  obtain hstamp | ⟨hopen, hstamp⟩ := stamp_cases session
  · omega
  · omega

theorem DayHours.stamp_le {session : Session} (h : DayHours session) :
    sessionDayStampOffsetMinutes session ≤ 2160 := h.stamp.2.1.le.trans (by decide)

/-- The trading date is at most one day on, and only for a session that does not open at
midnight. -/
theorem DayHours.shift {session : Session} (h : DayHours session) :
    0 ≤ sessionTradingDateShiftDays session ∧ sessionTradingDateShiftDays session ≤ 1 ∧
      (sessionTradingDateShiftDays session = 1 → 0 < sessionDayStampOffsetMinutes session) := by
  have hstamp := stamp_cases session
  have heq := shiftDays_eq h
  obtain ⟨hopens, hlength⟩ := h
  omega

end PineForge.Timeframe
