/-
Programs and the frames below them.

A program is built in a frame of its own.  Whatever text and tags it holds, the
frames that were open before it stay as they are while it runs, and its own
frame is the only one that its end takes off.

* `Builder.Passes` — the states between statements that a run passes;
* `Builder.Visits` — these, and the states between the events of a text;
* `Builder.Reachable` — the states that the runs of programs pass;
* `Passes.inside`, `Visits.above` — a run stays above the frames that it found;
* `Reachable.idle` — between tags, no tag is begun and no comment is open;
* `program_nests` — blocks and elements nest.

Design notes: elements and programs share one stack, so that nothing is closed
or given children across the border of a program is a statement about the frames
below the program's own: they are a tail of the stack in every state.
-/
import TemplateCompiler.Proofs.Template.Tags

namespace TemplateCompiler.Template

open Markup (Event Region)
open Mustache (Node Content Program)

/-! ### Stacks of frames -/

/-- A stack that has the frame of a program right on top of other frames. -/
def Above (base frames : List Frame) : Prop :=
  ∃ inner body, frames = inner ++ .block body :: base

theorem Over.above {base frames : List Frame} (h : Over base frames) : Above base frames := by
  induction h with
  | block => exact ⟨[], _, rfl⟩
  | element hrest ih =>
    obtain ⟨inner, body, hframes⟩ := ih
    exact ⟨_ :: inner, body, by rw [hframes, List.cons_append]⟩

theorem Above.trans {base mid frames : List Frame} (h : Above base mid) (h' : Above mid frames) :
    Above base frames := by
  obtain ⟨outer, body, rfl⟩ := h
  obtain ⟨inner, body', rfl⟩ := h'
  exact ⟨inner ++ .block body' :: outer, body, by simp⟩

/-! ### The states of a run -/

namespace Builder

/-- The states between statements that a builder passes when it runs some
statements, those of the programs in them included. -/
inductive Passes (source : Source) : Builder → List Node → Builder → Prop
  | start {b : Builder} {ns : List Node} : Passes source b ns b
  | next {b b₁ c : Builder} {n : Node} {rest : List Node} (h : b.node source n = .ok b₁)
    (hrest : Passes source b₁ rest c) : Passes source b (n :: rest) c
  /-- In the program of a block. -/
  | program {b c : Builder} {tag : BlockTag} {p : Program} {other : Option Program}
    {rest : List Node} (hdata : b.machine.state.isData = true)
    (hp : Passes source (b.push (.block [])) p.body c) :
    Passes source b (.block tag p other :: rest) c
  /-- Between the program of a block and its inverse. -/
  | ended {b c : Builder} {tag : BlockTag} {p : Program} {other : Option Program}
    {rest : List Node} {block : Block Statement} (hdata : b.machine.state.isData = true)
    (hp : b.program source p = .ok (block, c)) : Passes source b (.block tag p other :: rest) c
  /-- In the inverse of a block. -/
  | inverse {b b₁ c : Builder} {tag : BlockTag} {p q : Program} {rest : List Node}
    {block : Block Statement} (hdata : b.machine.state.isData = true)
    (hp : b.program source p = .ok (block, b₁))
    (hq : Passes source (b₁.push (.block [])) q.body c) :
    Passes source b (.block tag p (some q) :: rest) c

/-- The states that a builder is in when it runs some statements: between two
statements, or after some of the events of a text. -/
inductive Visits (source : Source) (b : Builder) (ns : List Node) : Builder → Prop
  | between {c : Builder} (h : Passes source b ns c) : Visits source b ns c
  | amid {b₁ c : Builder} {text : Content} {machine machine' : Markup.Machine}
    {read flushed events rest : List Event} (h : Passes source b ns b₁)
    (hread : (b₁.machine.moveTo text.valueStart).read text.value = (machine, read))
    (hflush : machine.flush = (machine', flushed)) (hevents : read ++ flushed = events ++ rest)
    (hrun : observeAll source { b₁ with machine := machine' } events = .ok c) :
    Visits source b ns c

/-- The states between statements of the runs of whole programs. -/
def Reachable (source : Source) (mode : Markup.Mode) (b : Builder) : Prop :=
  b = { machine := { mode } } ∨
    ∃ p : Program, Passes source (push { machine := { mode } } (.block [])) p.body b

variable {source : Source} {base : List Frame} {b b' c : Builder} {ns : List Node}

/-! ### What a run leaves alone -/

/-- A run is in a program above the frames that it found: in its own, or in one
that it began. -/
theorem Passes.inside (h : Passes source b ns c) (hin : Inside base b.region b) :
    ∃ base', Inside base' c.region c ∧ ∀ frames, Above base' frames → Above base frames := by
  induction h generalizing base with
  | start => exact ⟨base, hin, fun _ => id⟩
  | next hnode hrest ih => exact ih (node_balance _ hin hnode).1
  | program hdata hp ih =>
    -- What is below the program is the whole stack in front of it.
    obtain ⟨base', hin', hbase'⟩ := ih (hin.idle hdata).push
    exact ⟨base', hin', fun frames h => hin.above.above.trans (hbase' frames h)⟩
  | @ended b c tag p other rest block hdata hp =>
    obtain ⟨hidle', hframes, -⟩ := program_idle (hin.idle hdata) hp
    have hregion : c.region = .text := region_of_isData hidle'.data
    exact ⟨base, hregion ▸ ⟨hframes ▸ hin.above, hidle'.reads⟩, fun _ => id⟩
  | inverse hdata hp hq ih =>
    obtain ⟨hidle', hframes', -⟩ := program_idle (hin.idle hdata) hp
    obtain ⟨base', hin', hbase'⟩ := ih hidle'.push
    refine ⟨base', hin', fun frames h => hin.above.above.trans ?_⟩
    exact hframes' ▸ hbase' frames h

theorem Passes.nodes (h : b.nodes source ns = .ok c) : Passes source b ns c := by
  induction ns generalizing b with
  | nil =>
    rw [Builder.nodes] at h
    cases h
    exact .start
  | cons n rest ih =>
    obtain ⟨b₁, h₁, hrest⟩ := nodes_cons_eq_ok.mp h
    exact .next h₁ (ih hrest)

/-- The events of a text begin in the region of the builder that reads it. -/
theorem textEvents_lead {text : Content} {machine machine' : Markup.Machine}
    {read flushed events rest : List Event}
    (hread : (b.machine.moveTo text.valueStart).read text.value = (machine, read))
    (hflush : machine.flush = (machine', flushed)) (hevents : read ++ flushed = events ++ rest) :
    ∃ r, Markup.leadTo? b.region events = some r := by
  have hlead := (b.machine.moveTo text.valueStart).read_leads text.value
  have hflushed := machine.flush_leads
  rw [hread] at hlead
  rw [hflush] at hflushed
  have hall := (Markup.leadTo?_append hlead).trans hflushed
  rw [hevents, Markup.leadTo?, List.foldlM_append, Option.bind_eq_bind, Option.bind_eq_some_iff]
    at hall
  obtain ⟨r, hr, -⟩ := hall
  exact ⟨r, hr⟩

/-- So is it between the events of a text. -/
theorem Visits.above (h : Visits source b ns c) (hin : Inside base b.region b) :
    Above base c.frames := by
  cases h with
  | between h =>
    obtain ⟨base', hin', hbase'⟩ := h.inside hin
    exact hbase' _ hin'.above.above
  | amid h hread hflush hevents hrun =>
    obtain ⟨base', hin₁, hbase'⟩ := h.inside hin
    obtain ⟨r, hlead⟩ := textEvents_lead hread hflush hevents
    have hin' := (observeAll_inside (hin₁.withMachine _) hlead hrun).1
    exact hbase' _ hin'.above.above

/-- A state that a run of a program reaches between tags is idle. -/
theorem Reachable.idle {mode : Markup.Mode} (h : Reachable source mode b)
    (hdata : b.machine.state.isData = true) : b.Idle := by
  obtain rfl | ⟨p, h⟩ := h
  · exact idle_start mode
  · obtain ⟨base, hin, -⟩ := h.inside (idle_start mode).push
    exact hin.idle hdata

/-- Blocks and elements nest.  A program that begins between tags ends between
tags, with the frames that were open before it; at its end no element is open in
it; no tag is being read where it begins; and in all states of its run these
frames are open, as they were, below the program's own. -/
theorem program_nests {mode : Markup.Mode} (hreach : Reachable source mode b)
    (hdata : b.machine.state.isData = true) (p : Program) :
    b.tag = none ∧ b.attr = none ∧
      (∀ c, Visits source (b.push (.block [])) p.body c →
        Above b.frames c.frames) ∧
      ∀ block b', b.program source p = .ok (block, b') →
        b'.frames = b.frames ∧ b'.machine.state.isData = true ∧ b'.tag = none ∧ b'.attr = none ∧
        ∃ c, Visits source (b.push (.block [])) p.body c ∧
          nodes source (b.push (.block [])) p.body = .ok c ∧
          c.frames = .block block.body :: b.frames := by
  have hidle := hreach.idle hdata
  refine ⟨hidle.reads.1, hidle.reads.2.1, fun c hc => ?_, fun block b' h => ?_⟩
  · exact hc.above hidle.push
  · obtain ⟨hidle', hframes, c, hc, hbody⟩ := program_idle hidle h
    exact ⟨hframes, hidle'.data, hidle'.reads.1, hidle'.reads.2.1, c, .between (.nodes hc), hc,
      hbody⟩

/-- A block in an element, with an element in it. -/
def blockInElement : Source := ⟨"<div>\x7b\x7b#if a\x7d\x7d<p>x</p>\x7b\x7b/if\x7d\x7d</div>", ""⟩

/-- The run of the block leaves the open element and the template around it. -/
theorem program_nests_blockInElement :
    ∃ b p block b', Reachable blockInElement .precompile b ∧ b.frames.length = 2 ∧
      b.program blockInElement p = .ok (block, b') ∧ block.body.length = 1 ∧
      b'.frames = b.frames ∧ b'.machine.state.isData = true := by
  let start : Builder := { machine := { mode := .precompile } }
  let opening : Node := .content (.ofText "<div>" ⟨0, 5⟩)
  let p : Program := ⟨[.content (.ofText "<p>x</p>" ⟨14, 22⟩)], [], false, ⟨14, 22⟩⟩
  have hrun : ((start.push (.block [])).node blockInElement opening).toOption.map (fun b =>
      (b.machine.state.isData, b.frames.length,
        (b.program blockInElement p).toOption.map fun result => result.1.body.length))
      = some (true, 2, some 1) := by decide +kernel
  obtain ⟨b, hb, hrun⟩ := ok_of_map_toOption hrun
  simp only [Prod.mk.injEq] at hrun
  obtain ⟨hdata, hframes, hprogram⟩ := hrun
  obtain ⟨⟨block, b'⟩, hprogram, hlength⟩ := ok_of_map_toOption hprogram
  have hreach : Reachable blockInElement .precompile b :=
    .inr ⟨⟨[opening], [], false, ⟨0, 5⟩⟩, .next hb .start⟩
  obtain ⟨-, -, -, hends⟩ := program_nests hreach hdata p
  obtain ⟨hsame, hdata', -⟩ := hends block b' hprogram
  exact ⟨b, p, block, b', hreach, hframes, hprogram, hlength, hsame, hdata'⟩

end Builder

end TemplateCompiler.Template
