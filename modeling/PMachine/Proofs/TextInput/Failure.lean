import PMachine.Proofs.TextInput

/-!
# A file that fails after its bytes

A source may fail where others end. The fetch that meets the failure has still delivered the bytes before
it, and these are served by the calls that follow. So nothing is lost: the failure shows once while there
are bytes left, if the last of them are no whole line, and at every call after the last byte. The end of
the file is never seen.

* `TextInput.Failing`: a file on a source that fails, and `TextInput.Torn`: its last bytes come with the
  failure.
* `TextInput.fill_failing`: a fetch brings the next byte to the front, or it fails and keeps all bytes.
* `TextCall.onFile_failing`: a call answers as the flat cursor does, or it fails and changes no byte.
* `TextCall.answers_failing`: the codes, the faults and the end of a whole run.
-/

namespace PMachine

namespace TextInput

open FlatText (normalise)

/-- A file on a source that fails for the given reason. -/
structure Failing (reason : String) (t : TextInput) : Prop where
  failure : t.source.failure = some reason
  ended : t.ended = false

/-- The last bytes that were not fetched yet are no whole line. -/
def Torn (t : TextInput) : Prop := ∃ b ∈ t.source.bytes.getLast?, b ≠ newline

variable {reason : String} {t : TextInput}

theorem failing_ofSource (bytes : List UInt8) (reason : String) :
    (ofSource ⟨bytes, some reason⟩).Failing reason := ⟨rfl, rfl⟩

/-- Whether the last bytes are a whole line does not depend on the lines before them. -/
theorem torn_line (l rest : List UInt8) :
    (∃ b ∈ (l ++ newline :: rest).getLast?, b ≠ newline) ↔ ∃ b ∈ rest.getLast?, b ≠ newline := by
  cases rest with
  | nil => simp
  | cons b rest => simp [List.getLast?_cons]

/-- **A fetch from a source that fails** brings the next byte to the front and leaves the last bytes as
they are; or it fails with all bytes kept, at the end or where the last bytes are no whole line, and then
these are fetched. -/
theorem fill_failing (h : t.Failing reason) : ∃ t', t'.Failing reason ∧ t'.view = t.view ∧
    (fill t = .ok () t' ∧ t.view ≠ [] ∧ t'.line.head? = t.view.head? ∧ (t'.Torn ↔ t.Torn) ∨
      fill t = .error (.disk reason) t' ∧ ¬ t'.Torn ∧ (t.view = [] ∨ t.Torn)) := by
  unfold fill
  cases hline : t.line with
  | cons b line =>
    -- there is a byte at hand
    rw [if_neg (by simp)]
    have hview : t.view = b :: (line ++ normalise t.source.bytes) := by rw [view, hline, List.cons_append]
    exact ⟨t, h, rfl, Or.inl ⟨rfl, by simp [hview], by rw [hline, hview]; rfl, Iff.rfl⟩⟩
  | nil =>
    have hview : t.view = normalise t.source.bytes := by rw [view, hline, List.nil_append]
    rw [if_pos (by simp [h.ended])]
    rcases fetch_cases t.source with ⟨l, rest, hl, hbytes, hrun⟩ | ⟨hl, hrun⟩
    · obtain ⟨hsplit, hne⟩ := fetched_line hl rest
      rw [← hbytes, ← hview] at hsplit
      rw [hrun]
      refine ⟨⟨dropReturn (l ++ [newline]), { t.source with bytes := rest }, (l ++ [newline]).isEmpty⟩,
        ⟨h.failure, by simp⟩, hsplit.symm, Or.inl ⟨rfl, ?_, ?_, ?_⟩⟩
      · rw [hsplit]
        exact List.append_ne_nil_of_left_ne_nil hne _
      · rw [hsplit, List.head?_append_of_ne_nil _ hne]
      · rw [Torn, Torn, hbytes, torn_line]
    · -- the bytes that come with the failure are kept for later calls
      rw [FlatText.normalise_of_no_newline hl] at hview
      rw [hrun]
      simp only [h.failure]
      refine ⟨⟨t.source.bytes, ⟨[], some reason⟩, t.ended⟩, ⟨rfl, h.ended⟩, ?_, Or.inr ⟨rfl, ?_, ?_⟩⟩
      · rw [hview, view, normalise, List.append_nil]
      · rintro ⟨b, hb, -⟩
        cases hb
      · rw [hview, Torn]
        cases hlast : t.source.bytes.getLast? with
        | none => exact Or.inl (List.getLast?_eq_none_iff.1 hlast)
        | some b => exact Or.inr ⟨b, rfl, hl b (List.mem_of_getLast? hlast)⟩

/-- Looking at the next byte shows it, with the byte still there to be stepped over; or it fails as the
fetch does. -/
theorem peekByte_failing (h : t.Failing reason) : ∃ t', t'.Failing reason ∧ t'.view = t.view ∧
    ((∃ b l, t.view = b :: l ∧ peekByte t = .ok (some b) t' ∧ (t'.Torn ↔ t.Torn) ∧
        (Cursor.advance t').view = l) ∨
      peekByte t = .error (.disk reason) t' ∧ ¬ t'.Torn ∧ (t.view = [] ∨ t.Torn)) := by
  obtain ⟨t', ht', hview, ⟨hfill, hne, hhead, htorn⟩ | ⟨hfill, htorn⟩⟩ := fill_failing h
  · refine ⟨t', ht', hview, Or.inl ?_⟩
    obtain ⟨b, l, hl⟩ := List.exists_cons_of_ne_nil hne
    rw [hl, List.head?_cons] at hhead
    refine ⟨b, l, hl, ?_, htorn, ?_⟩
    · rw [peekByte, Action.bind_of_ok hfill, Action.bind_of_ok (Action.get_apply t'), hhead,
        Action.pure_apply]
    · obtain ⟨line, hline⟩ := List.head?_eq_some_iff.1 hhead
      rw [hl, view, hline, List.cons_append] at hview
      show t'.line.tail ++ normalise t'.source.bytes = l
      rw [hline]
      exact (List.cons.inj hview).2
  · exact ⟨t', ht', hview, Or.inr ⟨by rw [peekByte, Action.bind_of_error hfill], htorn⟩⟩

end TextInput

namespace TextCall

open FlatText (code)

/-- The codes among the answers. -/
def delivered (l : List (Except Fault Answer)) : List Word :=
  l.filterMap fun
    | .ok (.word n) => some n
    | _ => none

/-- The faults among the answers. -/
def faults (l : List (Except Fault Answer)) : List Fault :=
  l.filterMap fun
    | .error f => some f
    | .ok _ => none

variable {reason : String} {t : TextInput} {call : TextCall}

/-- **A call on a file that fails** answers as the flat cursor does, while there are bytes left; or it
fails and changes none of them, at the end or, once, where the last of them are no whole line. -/
theorem onFile_failing (hcall : call ∈ [atEnd, atLineEnd, read]) (h : t.Failing reason) :
    ∃ t', t'.Failing reason ∧
      ((∃ a, call.onFile t = .ok a t' ∧ call.onBytes t.view = .ok a t'.view ∧ t.view ≠ [] ∧
          (t'.Torn ↔ t.Torn)) ∨
        call.onFile t = .error (.disk reason) t' ∧ t'.view = t.view ∧ ¬ t'.Torn ∧
          (t.view = [] ∨ t.Torn)) := by
  obtain ⟨t', ht', hview, ⟨b, l, hl, hpeek, htorn, hrest⟩ | ⟨hpeek, htorn⟩⟩ :=
    TextInput.peekByte_failing h
  · have hne : t.view ≠ [] := by simp [hl]
    simp only [List.mem_cons, List.not_mem_nil, or_false] at hcall
    rcases hcall with rfl | rfl | rfl
    · refine ⟨t', ht', Or.inl ⟨.truth false, ?_, by rw [hview, hl]; rfl, hne, htorn⟩⟩
      rw [onFile, TextInput.atEnd, bind_assoc, Action.bind_of_ok hpeek]
      rfl
    · refine ⟨t', ht', Or.inl ⟨.truth (b = newline), ?_, by rw [hview, hl]; rfl, hne, htorn⟩⟩
      rw [onFile, TextInput.atLineEnd, bind_assoc, Action.bind_of_ok hpeek]
      rfl
    · refine ⟨Cursor.advance t', ⟨ht'.failure, ht'.ended⟩,
        Or.inl ⟨.word (code b), ?_, by rw [hrest, hl]; rfl, hne, htorn⟩⟩
      rw [onFile, TextInput.read, bind_assoc, Action.bind_of_ok hpeek]
      rfl
  · refine ⟨t', ht', Or.inr ⟨?_, hview, htorn⟩⟩
    simp only [List.mem_cons, List.not_mem_nil, or_false] at hcall
    rcases hcall with rfl | rfl | rfl
    · rw [onFile, TextInput.atEnd, bind_assoc, Action.bind_of_error hpeek]
    · rw [onFile, TextInput.atLineEnd, bind_assoc, Action.bind_of_error hpeek]
    · rw [onFile, TextInput.read, bind_assoc, Action.bind_of_error hpeek]

/-! ### Runs -/

theorem delivered_append (l₁ l₂ : List (Except Fault Answer)) :
    delivered (l₁ ++ l₂) = delivered l₁ ++ delivered l₂ := List.filterMap_append

theorem faults_append (l₁ l₂ : List (Except Fault Answer)) :
    faults (l₁ ++ l₂) = faults l₁ ++ faults l₂ := List.filterMap_append

/-- The answers `l` take a file from `t` to `t'` and lose nothing: what is left afterwards follows the codes
that were delivered. While bytes are left there was at most one fault, which brought the last bytes. -/
structure Serves (reason : String) (t : TextInput) (l : List (Except Fault Answer)) (t' : TextInput) :
    Prop where
  codes : t.view.map code = delivered l ++ t'.view.map code
  disk : ∀ f ∈ faults l, f = .disk reason
  once : t'.view ≠ [] → (faults l).length ≤ 1
  torn : t'.view ≠ [] → faults l ≠ [] → t.Torn ∧ ¬ t'.Torn
  kept : t'.Torn → t.Torn

namespace Serves

variable {t' : TextInput}

theorem nil (t : TextInput) : Serves reason t [] t where
  codes := rfl
  disk := nofun
  once _ := Nat.zero_le 1
  torn _ h := absurd rfl h
  kept := id

theorem answer {a : Answer} (hcodes : t.view.map code = delivered [.ok a] ++ t'.view.map code)
    (htorn : t'.Torn → t.Torn) : Serves reason t [.ok a] t' where
  codes := hcodes
  disk := nofun
  once _ := Nat.zero_le 1
  torn _ h := absurd rfl h
  kept := htorn

theorem fault (hview : t'.view = t.view) (hwhole : ¬ t'.Torn) (hcause : t.view = [] ∨ t.Torn) :
    Serves reason t [.error (.disk reason)] t' where
  codes := by
    rw [hview]
    rfl
  disk _ hf := List.mem_singleton.1 hf
  once _ := le_rfl
  torn hne _ := ⟨hcause.resolve_left (hview ▸ hne), hwhole⟩
  kept h := absurd h hwhole

theorem append {t₁ t₂ : TextInput} {l₁ l₂ : List (Except Fault Answer)}
    (h₁ : Serves reason t l₁ t₁) (h₂ : Serves reason t₁ l₂ t₂) : Serves reason t (l₁ ++ l₂) t₂ := by
  -- bytes that are left at the end were left in the middle, and only one of the parts met the failure
  have hleft : t₂.view ≠ [] → t₁.view ≠ [] := by
    intro hne hnil
    have hcodes := h₂.codes
    rw [hnil, List.map_nil, eq_comm, List.append_eq_nil_iff] at hcodes
    exact hne (List.map_eq_nil_iff.1 hcodes.2)
  have honly : t₂.view ≠ [] → faults l₁ = [] ∨ faults l₂ = [] := by
    intro hne
    by_contra hboth
    rw [not_or] at hboth
    exact (h₁.torn (hleft hne) hboth.1).2 (h₂.torn hne hboth.2).1
  refine ⟨?_, ?_, fun hne => ?_, fun hne hsome => ?_, fun htorn => h₁.kept (h₂.kept htorn)⟩
  · rw [h₁.codes, h₂.codes, delivered_append, List.append_assoc]
  · intro f hf
    rw [faults_append, List.mem_append] at hf
    exact hf.elim (h₁.disk f) (h₂.disk f)
  · rw [faults_append]
    rcases honly hne with hnone | hnone
    · rw [hnone, List.nil_append]
      exact h₂.once hne
    · rw [hnone, List.append_nil]
      exact h₁.once (hleft hne)
  · rw [faults_append] at hsome
    rcases honly hne with hnone | hnone
    · rw [hnone, List.nil_append] at hsome
      obtain ⟨htorn, hwhole⟩ := h₂.torn hne hsome
      exact ⟨h₁.kept htorn, hwhole⟩
    · rw [hnone, List.append_nil] at hsome
      obtain ⟨htorn, hwhole⟩ := h₁.torn (hleft hne) hsome
      exact ⟨htorn, fun h => hwhole (h₂.kept h)⟩

end Serves

/-- One call loses nothing and does not see an end. -/
theorem serves_call (hcall : call ∈ [atEnd, atLineEnd, read]) (h : t.Failing reason) :
    (call.onFile.after t).Failing reason ∧
      Serves reason t [call.onFile.outcome t] (call.onFile.after t) ∧
      (call = atEnd → call.onFile.outcome t ≠ .ok (.truth true)) := by
  obtain ⟨t', ht', ⟨a, hrun, hflat, hne, htorn⟩ | ⟨hrun, hview, hwhole, hcause⟩⟩ := onFile_failing hcall h
  · rw [Action.after_of_ok hrun, Action.outcome, hrun]
    obtain ⟨b, l, hl⟩ := List.exists_cons_of_ne_nil hne
    rw [hl] at hflat
    have hanswer : (b :: l).map code = delivered [.ok a] ++ t'.view.map code ∧
        (call = atEnd → a ≠ .truth true) := by
      simp only [List.mem_cons, List.not_mem_nil, or_false] at hcall
      rcases hcall with rfl | rfl | rfl
      all_goals
        injection hflat with ha hview
        subst ha
        rw [← hview]
        simp [delivered]
    refine ⟨ht', .answer (hl ▸ hanswer.1) htorn.1, fun hend htrue => ?_⟩
    exact hanswer.2 hend (Except.ok.inj htrue)
  · rw [Action.after_of_error hrun, Action.outcome, hrun]
    refine ⟨ht', .fault hview hwhole hcause, fun _ htrue => ?_⟩
    cases htrue

/-- A run loses nothing, does not see an end, and further calls go on from where it stopped. -/
theorem serves_calls (calls : List TextCall) (hcalls : ∀ call ∈ calls, call ∈ [atEnd, atLineEnd, read]) :
    ∀ t : TextInput, t.Failing reason → ∃ t', t'.Failing reason ∧
      Serves reason t (answers onFile calls t) t' ∧
      (atEnd, .ok (.truth true)) ∉ calls.zip (answers onFile calls t) ∧
      ∀ further, answers onFile (calls ++ further) t =
        answers onFile calls t ++ answers onFile further t' := by
  induction calls with
  | nil => exact fun t ht => ⟨t, ht, .nil t, nofun, fun _ => rfl⟩
  | cons call calls ih =>
    intro t ht
    obtain ⟨ht₁, hserves, hend⟩ := serves_call (hcalls call List.mem_cons_self) ht
    obtain ⟨t', ht', hrest, hends, hfurther⟩ :=
      ih (fun c hc => hcalls c (List.mem_cons_of_mem _ hc)) _ ht₁
    refine ⟨t', ht', hserves.append hrest, ?_, fun further => ?_⟩
    · rw [answers, List.zip_cons_cons, List.mem_cons, not_or]
      refine ⟨fun heq => ?_, hends⟩
      obtain ⟨hcall, hanswer⟩ := Prod.mk.inj heq
      exact hend hcall.symm hanswer.symm
    · rw [List.cons_append, answers, hfurther]
      rfl

/-- At the end every call fails. -/
theorem answers_of_view_nil (calls : List TextCall)
    (hcalls : ∀ call ∈ calls, call ∈ [atEnd, atLineEnd, read]) :
    ∀ t : TextInput, t.Failing reason → t.view = [] →
      answers onFile calls t = calls.map fun _ => .error (.disk reason) := by
  induction calls with
  | nil => exact fun _ _ _ => rfl
  | cons call calls ih =>
    intro t ht hnil
    obtain ⟨t', ht', ⟨a, -, -, hne, -⟩ | ⟨hrun, hview, -, -⟩⟩ :=
      onFile_failing (hcalls call List.mem_cons_self) ht
    · exact absurd hnil hne
    · rw [answers, Action.after_of_error hrun, Action.outcome, hrun, List.map_cons,
        ih (fun c hc => hcalls c (List.mem_cons_of_mem _ hc)) t' ht' (hview.trans hnil)]

/-- To read a character delivers a code or fails. -/
theorem length_outcome_read (t : TextInput) :
    (delivered [(onFile read).outcome t]).length + (faults [(onFile read).outcome t]).length = 1 := by
  cases hrun : (onFile read).outcome t with
  | error f => rfl
  | ok a =>
    obtain ⟨t', hok⟩ := Action.outcome_eq_ok.1 hrun
    obtain ⟨n, t₁, -, hpure⟩ := Action.bind_eq_ok.1 hok
    cases hpure
    rfl

/-- There are no more reads than bytes delivered and faults. -/
theorem count_read_le (calls : List TextCall) : ∀ t : TextInput,
    calls.count .read ≤ (delivered (answers onFile calls t)).length +
      (faults (answers onFile calls t)).length := by
  induction calls with
  | nil => exact fun _ => Nat.zero_le _
  | cons call calls ih =>
    intro t
    have hrest := ih (call.onFile.after t)
    rw [answers, List.count_cons, ← List.singleton_append, delivered_append, faults_append,
      List.length_append, List.length_append]
    by_cases hread : call = read
    · have hone := length_outcome_read t
      rw [← hread] at hone
      rw [if_pos (beq_iff_eq.2 hread)]
      omega
    · rw [if_neg fun h => hread (beq_iff_eq.1 h)]
      omega

/-- **A file that fails after its bytes loses none of them.** Whatever is called of the two tests and the
reading of a character, the codes that are delivered are those of the bytes in order, without the carriage
returns before the ends of lines, and with enough calls all of them. Every fault gives the reason of the
source. Before all codes are delivered there is at most one, and none if the bytes end with the end of a
line; afterwards every call fails. No test finds the end of the file. -/
theorem answers_failing (bytes : List UInt8) (reason : String) (calls : List TextCall)
    (hcalls : ∀ call ∈ calls, call ∈ [atEnd, atLineEnd, read]) :
    let file := TextInput.ofSource ⟨bytes, some reason⟩
    let codes := (FlatText.normalise bytes).map code
    let l := answers onFile calls file
    delivered l <+: codes ∧
      (codes.length < calls.count .read → delivered l = codes) ∧
      (∀ f ∈ faults l, f = .disk reason) ∧
      (delivered l ≠ codes → (faults l).length ≤ 1 ∧ (bytes.getLast? = some newline → faults l = [])) ∧
      (delivered l = codes → ∀ further, (∀ call ∈ further, call ∈ [atEnd, atLineEnd, read]) →
        answers onFile (calls ++ further) file = l ++ further.map fun _ => .error (.disk reason)) ∧
      (atEnd, .ok (.truth true)) ∉ calls.zip l := by
  intro file codes l
  obtain ⟨t', ht', hserves, hends, hfurther⟩ :=
    serves_calls calls hcalls file (TextInput.failing_ofSource bytes reason)
  have hcodes : codes = delivered l ++ t'.view.map code := hserves.codes
  have hleft : delivered l ≠ codes ↔ t'.view ≠ [] := by
    rw [hcodes, ne_eq, List.self_eq_append_right, List.map_eq_nil_iff]
  refine ⟨⟨_, hcodes.symm⟩, fun hcount => ?_, hserves.disk, fun hne => ?_, fun hall further hfurthers => ?_,
    hends⟩
  · -- each call that reads delivers a code, but for the one that failed
    by_contra hne
    have honce : (faults l).length ≤ 1 := hserves.once (hleft.1 hne)
    have hreads : calls.count .read ≤ (delivered l).length + (faults l).length := count_read_le calls file
    have hlength : (delivered l).length + (t'.view.map code).length = codes.length := by
      rw [← List.length_append, ← hcodes]
    have hpos := List.length_pos_of_ne_nil (hleft.1 hne)
    rw [List.length_map] at hlength
    omega
  · refine ⟨hserves.once (hleft.1 hne), fun hlast => ?_⟩
    by_contra hsome
    obtain ⟨b, hb, hnot⟩ := (hserves.torn (hleft.1 hne) hsome).1
    exact hnot (Option.some.inj (hb.symm.trans hlast))
  · rw [hfurther, answers_of_view_nil further hfurthers t' ht' (not_not.1 (mt hleft.2 (not_not.2 hall)))]

theorem answers_failing_torn :
    (∀ call ∈ [read, read, atEnd, read, read], call ∈ [atEnd, atLineEnd, read]) ∧
      delivered (answers onFile [read, read, atEnd, read, read]
        (.ofSource ⟨[97, 13, 10, 98], some "cut"⟩)) = [97, 13, 98] :=
  have hcalls : ∀ call ∈ [read, read, atEnd, read, read], call ∈ [atEnd, atLineEnd, read] := by decide
  ⟨hcalls, (answers_failing [97, 13, 10, 98] "cut" _ hcalls).2.1 (by decide +kernel)⟩

end TextCall

end PMachine
