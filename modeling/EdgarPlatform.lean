import EdgarPlatform.Admission.Delivery
import EdgarPlatform.Bookkeeping.Candidates
import EdgarPlatform.Bookkeeping.Compacted
import EdgarPlatform.Bookkeeping.Fencing
import EdgarPlatform.Bookkeeping.Histories
import EdgarPlatform.Bookkeeping.Prefixes
import EdgarPlatform.Bookkeeping.Prerequisites
import EdgarPlatform.Cascade.Candidates
import EdgarPlatform.Cascade.Orders
import EdgarPlatform.Combinations.Exact
import EdgarPlatform.Control.Calls
import EdgarPlatform.Control.Captures
import EdgarPlatform.Formats.Delimited
import EdgarPlatform.Formats.Patterns
import EdgarPlatform.Identity.Listing
import EdgarPlatform.Identity.Places
import EdgarPlatform.Jsonb.Objects
import EdgarPlatform.Lookups.Assembled
import EdgarPlatform.Lookups.Splits
import EdgarPlatform.Lookups.Upkeep
import EdgarPlatform.MasterRecords.Details
import EdgarPlatform.MasterRecords.Survivorship
import EdgarPlatform.Mastering.Orders
import EdgarPlatform.Mastering.Splitting
import EdgarPlatform.Matching.Outcomes
import EdgarPlatform.Pages.Above
import EdgarPlatform.Readings.LastWord
import EdgarPlatform.Readings.Newest
import EdgarPlatform.Reductions.Folds
import EdgarPlatform.Relationships.Again
import EdgarPlatform.Relationships.SightingOrders
import EdgarPlatform.Relationships.Successions
import EdgarPlatform.Search.Words
import EdgarPlatform.Sequences.Integers
import EdgarPlatform.Sequences.Tighter
import EdgarPlatform.Silver.ExactDecimals
import EdgarPlatform.Silver.Ids
import EdgarPlatform.Silver.Numeric
import EdgarPlatform.SourceStreams.Acceptance
