import ShortReel.TransitionWindows
import ShortReel.ArtifactDownloads
import ShortReel.WorkerLease
import ShortReel.Ledger
import ShortReel.SlotCapacity
import ShortReel.TaskDependencies
import ShortReel.VideoSubmissions
import ShortReel.TemplateSecrets
import ShortReel.TemplateTrials
import ShortReel.JsonPathPadding
import ShortReel.VersionFailures
import ShortReel.VersionSelections
import ShortReel.EventLogRuns
import ShortReel.EpisodeReset
import ShortReel.EpisodeReplanRuns
import ShortReel.AssetMergeResolution
import ShortReel.ScriptBatchRuns
import ShortReel.TaskCascades
import ShortReel.RemapBoundaries
import ShortReel.SessionKeyRuns
import ShortReel.ProfileHistories
import ShortReel.SessionBranchRuns
import ShortReel.StagedSwapRuns
import ShortReel.TrackStacks
import ShortReel.BgmPlacement
import ShortReel.FilmFrames
import ShortReel.BorrowedFrames
import ShortReel.TouchedClips
import ShortReel.ReadoutRoundTrip
import ShortReel.BatchOutcomes
import ShortReel.CascadeReasons
import ShortReel.ContentDigest
import ShortReel.SubtitleSentences
import ShortReel.SubtitleBreaks
import ShortReel.AspectMultiples
import ShortReel.ComfyWalks
import ShortReel.UsagePages
import ShortReel.PaidSelections
import ShortReel.ManifestTransactions
import ShortReel.ManifestReadRuns
import ShortReel.SpeechLines
import ShortReel.AssetRenamePaths
import ShortReel.ProjectFileUpdates
import ShortReel.EntryProjectionMounts
import ShortReel.DraftReconnects
import ShortReel.PlacedInsertions
import ShortReel.EpisodeAnchors
import ShortReel.MovedClips
import ShortReel.Mp4Layouts
import ShortReel.UsageConservation
import ShortReel.ActorReleases
import ShortReel.SessionAppendSummaries
import ShortReel.ArtifactKeys
