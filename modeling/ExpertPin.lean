import ExpertPin.Cache.AnalyzerSoundness
import ExpertPin.Prefetch.Lookahead
import ExpertPin.Prefetch.HitRate
import ExpertPin.Trace.Fields
import ExpertPin.Trace.GpuBounds
import ExpertPin.Reload.Atomicity
import ExpertPin.Draft.NgramRuns
import ExpertPin.Sampling.BudgetEnforcement
import ExpertPin.Kv.DefragRows
import ExpertPin.Kv.CompactRows
import ExpertPin.Kv.Checkpoint
import ExpertPin.Ple.Batching
import ExpertPin.Qsa.Fresh
import ExpertPin.Server.SlotRuns
import ExpertPin.Peg.Strict
import ExpertPin.Peg.Streaming
import ExpertPin.Sampling.Speculation
import ExpertPin.Sampling.ExpiringStages
import ExpertPin.Sampling.DraftVerification
import ExpertPin.Chat.AnthropicStream
import ExpertPin.Server.ChunkSampling
import ExpertPin.Server.PromptCachePromises
import ExpertPin.Server.TerminalResults
import ExpertPin.Server.StreamedText
import ExpertPin.Prefetch.Population
import ExpertPin.Join.Slices
import ExpertPin.Manifest.Pipeline
import ExpertPin.Draft.DraftMirror
import ExpertPin.Gguf.RoundTrip
import ExpertPin.Galloc.Reuse
import ExpertPin.Sampling.TokenMatching
import ExpertPin.Unicode.Codepoints
import ExpertPin.Mmap.Fragments
import ExpertPin.Prefetch.Words
import ExpertPin.Draft.NgramReads
import ExpertPin.Draft.NgramChoice
import ExpertPin.Draft.NgramStored
import ExpertPin.Draft.SuffixMatches
import ExpertPin.Prefetch.Isolation
import ExpertPin.Grammar.Pieces
import ExpertPin.Grammar.PartialChars
import ExpertPin.Schema.IntegerBounds
import ExpertPin.Kv.SaveRestore
import ExpertPin.Grammar.LeftRecursion
import ExpertPin.Regex.Groups
import ExpertPin.Server.PromptTruncation
import ExpertPin.Server.TokenListRuns
import ExpertPin.Tokenizer.UgmBest
import ExpertPin.Tokenizer.BigramSessions
import ExpertPin.Peg.Until
import ExpertPin.Peg.RoundTrip
import ExpertPin.Peg.ExclusionLanguage
import ExpertPin.Draft.Tuner
import ExpertPin.Galloc.Tiling
import ExpertPin.Server.Eviction
import ExpertPin.Tokenizer.SpecialTokens
import ExpertPin.Ggml.Barrier
import ExpertPin.Ggml.BuildForward
